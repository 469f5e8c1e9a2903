import Mathlib
import NixTyping.Proofs.WalkInvariant
/-!
# Walks succeed

A walk never finds a slot that it cannot use, and it is never nested too deeply: each
time an expression or a slot is entered, less is left to be judged. The walk judges
every expression it was given by the rules, once (`judge_total`).

`Carries env root depth run` says that a runner does so for the tasks that fit its
depth; each form of expression is then judged by a runner for its parts.
-/

namespace NixTyping

namespace Judging

/-! ## Runs that succeed -/

/-- The run succeeds, keeps the invariant, and judges `X` besides what waits. -/
def Walks {α : Type} (env : Env) (root : Expr) (forcing : List Nat) (s : State) (m : Judging α) (X : Multiset Expr)
    (Q : State → α → Prop) : Prop :=
  ∃ a s', Runs m s a s' ∧ Holds env root forcing s' ∧ Advance s s' X ∧ Q s' a

/-- One state comes after another in a walk. -/
def Later (s s' : State) : Prop := ∃ X, Advance s s' X

theorem Later.refl (s : State) : Later s s := ⟨0, .refl s⟩

theorem Later.trans {s s₁ s₂ : State} (h : Later s s₁) (h' : Later s₁ s₂) : Later s s₂ := by
  obtain ⟨X, h⟩ := h
  obtain ⟨Y, h'⟩ := h'
  exact ⟨X + Y, h.trans h'⟩

theorem Told.later {s s' : State} {scopes : List Scope} {e : Expr} {J : Judgment} (h : Told s.history scopes e J)
    (hlater : Later s s') : Told s'.history scopes e J := by
  obtain ⟨X, hadvance⟩ := hlater
  exact h.mono fun _ => hadvance.mem

section Walks
variable {α β : Type} {env : Env} {root : Expr} {forcing : List Nat} {s : State} {m : Judging α} {f : α → Judging β}
  {X Y : Multiset Expr} {Q : State → α → Prop} {R : State → β → Prop}

theorem walks_pure (h : Holds env root forcing s) {a : α} (ha : Q s a) : Walks env root forcing s (pure a) 0 Q :=
  ⟨a, s, runs_pure a s, h, .refl s, ha⟩

theorem Walks.bind (h : Walks env root forcing s m X Q)
    (hf : ∀ a s₁, Holds env root forcing s₁ → Later s s₁ → Q s₁ a → Walks env root forcing s₁ (f a) Y R) :
    Walks env root forcing s (m >>= f) (X + Y) R := by
  obtain ⟨a, s₁, hrun, hs₁, hadvance, ha⟩ := h
  obtain ⟨b, s₂, hrun', hs₂, hadvance', hb⟩ := hf a s₁ hs₁ ⟨X, hadvance⟩ ha
  exact ⟨b, s₂, hrun.bind hrun', hs₂, hadvance.trans hadvance', hb⟩

theorem Walks.account (h : Walks env root forcing s m X Q) (hX : X = Y) : Walks env root forcing s m Y Q := hX ▸ h

theorem Walks.imp {Q' : State → α → Prop} (h : Walks env root forcing s m X Q)
    (himp : ∀ a s', Holds env root forcing s' → Later s s' → Q s' a → Q' s' a) : Walks env root forcing s m X Q' := by
  obtain ⟨a, s', hrun, hs', hadvance, ha⟩ := h
  exact ⟨a, s', hrun, hs', hadvance, himp a s' hs' ⟨X, hadvance⟩ ha⟩

/-- A first step that judges nothing. -/
theorem Walks.step (h : Walks env root forcing s m 0 Q)
    (hf : ∀ a s₁, Holds env root forcing s₁ → Later s s₁ → Q s₁ a → Walks env root forcing s₁ (f a) Y R) :
    Walks env root forcing s (m >>= f) Y R := (h.bind hf).account (zero_add Y)

/-- A last step that judges nothing. -/
theorem Walks.last (h : Walks env root forcing s m X Q)
    (hf : ∀ a s₁, Holds env root forcing s₁ → Later s s₁ → Q s₁ a → Walks env root forcing s₁ (f a) 0 R) :
    Walks env root forcing s (m >>= f) X R := (h.bind hf).account (add_zero X)

theorem walks_mapM {Q : State → α → β → Prop} (hQ : ∀ a b s s', Q s a b → Later s s' → Q s' a b)
    (X : α → Multiset Expr) (h : Holds env root forcing s) {as : List α}
    (hf : ∀ a ∈ as, ∀ s',
      Holds env root forcing s' → Later s s' → Walks env root forcing s' (f a) (X a) fun t b => Q t a b) :
    Walks env root forcing s (as.mapM f) (as.map X).sum fun t bs => List.Forall₂ (Q t) as bs := by
  induction as generalizing s with
  | nil => exact walks_pure h .nil
  | cons a as ih =>
    rw [List.mapM_cons, List.map_cons, List.sum_cons]
    refine (hf a List.mem_cons_self s h (.refl s)).bind fun b s₁ h₁ hlater₁ hb => ?_
    refine (ih h₁ fun a' ha' s' hs' hlater => hf a' (List.mem_cons_of_mem _ ha') s' hs' (hlater₁.trans hlater)).last
      fun bs s₂ h₂ hlater₂ hbs => ?_
    exact walks_pure h₂ (.cons (hQ a b s₁ s₂ hb hlater₂) hbs)

/-! ## Steps that judge nothing -/

theorem walks_modify {g : State → State} (h : Holds env root forcing (g s)) (hslots : (g s).slots = s.slots)
    (hhistory : (g s).history = s.history) : Walks env root forcing s (modify g) 0 fun _ _ => True :=
  ⟨(), g s, runs_modify g s, h, .of_same hslots hhistory, trivial⟩

theorem walks_fresh (h : Holds env root forcing s) : Walks env root forcing s fresh 0 fun _ _ => True :=
  ⟨s.next, _, runs_fresh s, { h with }, .of_same rfl rfl, trivial⟩

theorem walks_freshTy (h : Holds env root forcing s) :
    Walks env root forcing s freshTy 0 fun _ t => ∃ v, t = .var v :=
  (walks_fresh h).step fun v _ h₁ _ _ => walks_pure h₁ ⟨v, rfl⟩

theorem walks_unknown (h : Holds env root forcing s) :
    Walks env root forcing s unknown 0 fun _ J => ∃ v, J = .ofTy (.var v) := by
  refine (walks_freshTy h).step ?_
  rintro _ s₁ h₁ - ⟨v, rfl⟩
  exact walks_pure h₁ ⟨v, rfl⟩

theorem walks_leftUnknown (h : Holds env root forcing s) (x : String) :
    Walks env root forcing s (note (.leftUnknown x)) 0 fun _ _ => True :=
  walks_modify { h with noted := fun i hi => h.noted i (by simpa using hi) } rfl rfl

theorem walks_remember (h : Holds env root forcing s) (v : Nat) {r : KnownRecord} (hr : env.Viable → r.Viable) :
    Walks env root forcing s (remember v r) 0 fun _ _ => True := by
  refine walks_modify { h with known := fun henv x hx => ?_ } rfl rfl
  rcases List.mem_cons.1 hx with rfl | hx
  · exact hr henv
  · exact h.known henv x hx

theorem walks_recordOf (h : Holds env root forcing s) {t : Ty} (ht : env.Viable → t.Viable) :
    Walks env root forcing s (recordOf t) 0 fun _ r => env.Viable → ∀ k ∈ r, k.Viable := by
  cases t with
  | record fields o =>
    refine walks_pure h fun henv k hk => ?_
    cases hk
    exact Ty.viable_record.1 (ht henv)
  | var v =>
    refine ⟨_, s, (runs_get s).bind (runs_pure _ s), h, .refl s, fun henv k hk => ?_⟩
    exact h.known henv _ (mem_of_lookup hk)
  | _ => exact walks_pure h fun _ k hk => by cases hk

theorem use_ofTy {t : Ty} (ht : env.Viable → t.Viable) : Use env (.ofTy t) where
  assumptions := rfl
  constraints := by rintro c ⟨⟩
  viable henv := Judgment.viable_ofTy (ht henv)

theorem use_constrained {c : Constraint} {t : Ty} (hc : c.IsInstance) (hviable : env.Viable → c.Viable ∧ t.Viable) :
    Use env (.constrained c t) where
  assumptions := rfl
  constraints c' hc' := by
    obtain rfl : c' = c := by simpa [Judgment.constrained] using hc'
    exact hc
  viable henv := Judgment.viable_constrained (hviable henv).1 (hviable henv).2

theorem walks_instanceOf (h : Holds env root forcing s) {t : Ty} (ht : env.Viable → t.Viable) (o : Origin) :
    Walks env root forcing s (instanceOf t o) 0 fun _ J => Use env J := by
  cases o with
  | here => exact walks_pure h (use_ofTy ht)
  | letBound mono =>
    refine (walks_freshTy h).step ?_
    rintro _ s₁ h₁ - ⟨v, rfl⟩
    exact walks_pure h₁ (use_constrained trivial fun henv => ⟨⟨.var v, ht henv⟩, .var v⟩)
  | ambient vars =>
    refine (walks_freshTy h).step ?_
    rintro _ s₁ h₁ - ⟨v, rfl⟩
    exact walks_pure h₁ (use_constrained trivial fun henv => ⟨⟨.var v, ht henv⟩, .var v⟩)

theorem walks_unknown_use (h : Holds env root forcing s) : Walks env root forcing s unknown 0 fun _ J => Use env J := by
  refine (walks_unknown h).imp ?_
  rintro _ s₁ - - ⟨v, rfl⟩
  exact use_ofTy fun _ => .var v

theorem walks_fieldOf (h : Holds env root forcing s) {t : Ty} (ht : env.Viable → t.Viable) (name : String) :
    Walks env root forcing s (fieldOf t name) 0 fun _ J => Use env J := by
  refine (walks_recordOf h ht).step fun r s₁ h₁ _ hr => ?_
  cases r with
  | none => exact walks_unknown_use h₁
  | some r =>
    simp only
    cases hfield : findKey name r.fields with
    | none => exact walks_unknown_use h₁
    | some t => exact walks_instanceOf h₁ (fun henv => hr henv r rfl _ (mem_of_findKey hfield)) r.origin

end Walks

/-! ## Tasks -/

/-- How much deeper a slot goes before it comes to an expression. -/
def Pending.delay (p : Pending) : Nat :=
  match p.value with
  | .expr _ => 0
  | .field _ _ => 1

/-- The walk is at an expression, and deep enough for it and for what waits. -/
structure Visit (env : Env) (root : Expr) (depth : Nat) (ctx : Context) (e : Expr) (s : State) : Prop where
  mem : e ∈ root.all
  stands : Stands env s.history s.size ctx.forcing e.mentioned ctx.scopes
  holds : Holds env root ctx.forcing s
  fits : 3 * (e.worth.card + s.load) ≤ depth

/-- The walk needs a slot, and is deep enough for what waits. -/
structure Request (env : Env) (root : Expr) (depth : Nat) (ctx : Context) (i : Nat) (s : State) : Prop where
  asks : Asks s.history ctx.forcing i
  holds : Holds env root ctx.forcing s
  fits : ∀ p, s.plan[i]? = some p → 3 * s.load + 1 + p.delay ≤ depth

/-- What a slot gives: its judgment, unless it is needed for that. -/
structure Gives (env : Env) (forcing : List Nat) (i : Nat) (s : State) (J : Judgment) : Prop where
  viable : env.Viable → J.ty.Viable
  forced : i ∉ forcing → s.slot? i = some (.forced J)

/-- The runner gets through every visit and every request that fits the depth. -/
structure Carries (env : Env) (root : Expr) (depth : Nat) (run : Runner) : Prop where
  expr : ∀ {ctx e s}, Visit env root depth ctx e s →
    Walks env root ctx.forcing s (run ctx (.expr e)) e.worth fun s' J => Told s'.history ctx.scopes e J
  force : ∀ {ctx i s}, Request env root depth ctx i s →
    Walks env root ctx.forcing s (run ctx (.force i)) 0 fun s' J => Gives env ctx.forcing i s' J

section Visit
variable {env : Env} {root e p : Expr} {depth : Nat} {ctx : Context} {s s' : State}

theorem Visit.later (h : Visit env root depth ctx e s) (hs : Holds env root ctx.forcing s') (hlater : Later s s') :
    Visit env root depth ctx e s' := by
  obtain ⟨X, hadvance⟩ := hlater
  have := hadvance.load_le
  have := h.fits
  exact ⟨h.mem, h.stands.mono (fun _ => hadvance.mem) hadvance.size fun _ hx => hx, hs, by omega⟩

theorem Visit.part (h : Visit env root (depth + 1) ctx e s) (hp : p ∈ e.form.judged) :
    Visit env root depth ctx p s := by
  have hpart := Form.judged_subset hp
  have := Expr.card_worth_of_mem hp
  have := e.card_worth
  have := h.fits
  refine ⟨Expr.all_trans (Expr.mem_all.2 (.inr ⟨p, hpart, Expr.mem_all.2 (.inl rfl)⟩)) h.mem, ?_, h.holds, by omega⟩
  exact h.stands.mono (fun _ he => he) le_rfl fun x hx => Expr.mem_mentioned_of_part hpart hx

theorem Visit.enterParams (h : Visit env root depth ctx e s) (vars : List Nat) (names : List String) :
    Visit env root depth ((ctx.fix vars).enter (.params names)) e s :=
  ⟨h.mem, h.stands.cons (.params names _), h.holds, h.fits⟩

theorem Visit.enterWith (h : Visit env root depth ctx e s) {r : Option KnownRecord}
    (hr : env.Viable → ∀ k ∈ r, k.Viable) : Visit env root depth (ctx.enter (.withIn r)) e s :=
  ⟨h.mem, h.stands.cons (.withIn hr _), h.holds, h.fits⟩

theorem Pending.delay_le (p : Pending) : p.delay ≤ 1 := by
  unfold delay
  split <;> decide

theorem Request.later {i : Nat} (h : Request env root depth ctx i s) (hs : Holds env root ctx.forcing s')
    (hlater : Later s s') : Request env root depth ctx i s' := by
  obtain ⟨X, hadvance⟩ := hlater
  obtain ⟨d, hd, hhas, hrest⟩ := h.asks
  obtain ⟨p, -, -, hplan, -⟩ := h.holds.slot hd hhas
  have := h.fits p hplan
  have := hadvance.load_le
  refine ⟨⟨d, hadvance.mem hd, hhas, hrest⟩, hs, fun q hq => ?_⟩
  obtain rfl := Option.some.inj ((hadvance.planned hplan).symm.trans hq)
  omega

/-- A name that is mentioned stands for a slot that can be asked for. -/
theorem Visit.request (h : Visit env root (depth + 1) ctx e s) {x : String} (hx : x ∈ e.mentioned) {i : Nat}
    {mono : VarSet}
    (hlexical : lexicalIn ctx.scopes x = some (.letBody i mono) ∨
      ∃ components, lexicalIn ctx.scopes x = some (.group i mono components)) : Request env root depth ctx i s := by
  refine ⟨h.stands.asks hx hlexical, h.holds, fun p _ => ?_⟩
  have := p.delay_le
  have := h.fits
  have := e.card_worth
  omega

end Visit

/-! ## Names -/

section Names
variable {env : Env} {root : Expr} {depth : Nat} {run : Runner} {ctx : Context} {s : State}

theorem walks_letBound (hrun : Carries env root depth run) {i : Nat} (h : Request env root depth ctx i s)
    (mono : VarSet) : Walks env root ctx.forcing s (letBound run ctx i mono) 0 fun _ r => env.Viable → r.2.Viable := by
  refine (walks_fresh h.holds).step fun v s₁ h₁ hlater₁ _ => ?_
  refine (hrun.force (h.later h₁ hlater₁)).step fun J s₂ h₂ _ hJ => ?_
  dsimp only
  split
  · next fields o hty =>
    refine (walks_remember h₂ v fun henv => ?_).step fun _ s₃ h₃ _ _ => walks_pure h₃ hJ.viable
    exact Ty.viable_record.1 (hty ▸ hJ.viable henv)
  · exact walks_pure h₂ hJ.viable

theorem walks_ambientName (h : Holds env root ctx.forcing s) {x : String} {schemes : List Scheme}
    (hlookup : env.lookup x = some schemes) :
    Walks env root ctx.forcing s (ambientName x schemes) 0 fun _ J => ∃ v, J = .reference x (.var v) := by
  refine (walks_fresh h).step fun v s₁ h₁ _ _ => ?_
  dsimp only
  split
  · refine (walks_remember h₁ v fun henv => ?_).step fun _ s₂ h₂ _ _ => walks_pure h₂ ⟨v, rfl⟩
    exact Ty.viable_record.1 (henv x _ hlookup _ List.mem_cons_self)
  · exact walks_pure h₁ ⟨v, rfl⟩

theorem walks_openedName {n : Nat} {M : List String} (hstands : Stands env s.history n ctx.forcing M ctx.scopes)
    (h : Holds env root ctx.forcing s) (x : String) :
    Walks env root ctx.forcing s (openedName ctx x) 0 fun _ J =>
      (ctx.opened = [] ∧ ∃ v, J = .reference x (.var v)) ∨ (ctx.opened ≠ [] ∧ Use env J) := by
  have hopened : env.Viable → ∀ r ∈ ctx.opened, ∀ k ∈ r, k.Viable := by
    intro henv r hr
    obtain ⟨sc, hsc, hwith⟩ := List.mem_filterMap.1 hr
    obtain ⟨before, outer, hscopes⟩ := List.append_of_mem hsc
    have hrests := hstands sc outer ⟨before, hscopes.symm⟩
    cases hrests with
    | withIn viable =>
      cases hwith
      exact viable henv
    | _ => cases hwith
  unfold openedName
  simp only
  split
  · next t o hfound =>
    obtain ⟨r, hr, hfield⟩ := List.exists_of_findSome?_eq_some hfound
    refine (walks_instanceOf h (fun henv => ?_) o).imp fun J s₁ _ _ hJ => .inr ⟨List.ne_nil_of_mem hr, hJ⟩
    cases r with
    | none => cases hfield
    | some r =>
      cases hkey : findKey x r.fields with
      | none => simp [hkey] at hfield
      | some u =>
        simp only [hkey, Option.bind_eq_bind, Option.bind_some, Option.pure_def, Option.some.injEq,
          Prod.mk.injEq] at hfield
        obtain ⟨rfl, rfl⟩ := hfield
        exact hopened henv _ hr r rfl _ (mem_of_findKey hkey)
  · split
    · next hempty =>
      refine (walks_freshTy h).step ?_
      rintro _ s₁ h₁ - ⟨v, rfl⟩
      exact walks_pure h₁ (.inl ⟨List.isEmpty_iff.1 hempty, v, rfl⟩)
    · next hne =>
      refine (walks_leftUnknown h x).step fun _ s₁ h₁ _ _ => (walks_unknown_use h₁).imp fun J s₂ _ _ hJ => ?_
      exact .inr ⟨fun he => hne (List.isEmpty_iff.2 he), hJ⟩

theorem walks_reference (hrun : Carries env root depth run) {id : Nat} {span : Option Span} {x : String}
    (h : Visit env root (depth + 1) ctx (.mk id span (.ref x)) s) :
    Walks env root ctx.forcing s (reference env run ctx x) 0 fun s' J =>
      Follows env (Told s'.history) ctx.scopes (.ref x) J := by
  have hx : x ∈ (Expr.mk id span (.ref x)).mentioned := by
    rw [Expr.mentioned]
    simp [Expr.form]
  have hlexical : ctx.lexical? x = lexicalIn ctx.scopes x := rfl
  unfold reference
  rw [hlexical]
  split
  · next hparam =>
    refine (walks_freshTy h.holds).step ?_
    rintro _ s₁ h₁ - ⟨v, rfl⟩
    exact walks_pure h₁ (.assumed (by rw [Assumed, hparam]; trivial) v)
  · next i mono hbody =>
    refine (walks_letBound hrun (h.request hx (.inl hbody)) mono).step fun r s₁ h₁ _ _ => ?_
    exact walks_pure h₁ (.assumed (by rw [Assumed, hbody]; trivial) r.1)
  · next i mono components hgroup =>
    have hused : ¬ Assumed env ctx.scopes x := by
      rw [Assumed, hgroup]
      exact fun ha => ha
    have hrequest := h.request hx (.inr ⟨components, hgroup⟩)
    split
    · refine (hrun.force hrequest).step fun J s₁ h₁ _ hJ => ?_
      exact walks_pure h₁ (.used hused (use_ofTy hJ.viable))
    · refine (walks_letBound hrun hrequest mono).step fun r s₁ h₁ _ hr => ?_
      exact walks_pure h₁ (.used hused (use_constrained trivial fun henv => ⟨⟨.var r.1, hr henv⟩, .var r.1⟩))
  · next hnone =>
    have hassumed : Assumed env ctx.scopes x ↔ constant? x = none ∧ (env.contains x = true ∨ ctx.opened = []) := by
      rw [Assumed, hnone]
      rfl
    split
    · next t hconstant =>
      refine walks_pure h.holds (.used (fun ha => ?_) (use_ofTy fun _ => ?_))
      · rw [(hassumed.1 ha).1] at hconstant
        cases hconstant
      · unfold constant? at hconstant
        split at hconstant <;> cases hconstant <;> exact .prim _
    · next schemes hconstant hlookup =>
      refine (walks_ambientName h.holds hlookup).imp ?_
      rintro _ s₁ - - ⟨v, rfl⟩
      exact .assumed (hassumed.2 ⟨hconstant, .inl (by rw [Env.contains, hlookup]; rfl)⟩) v
    · next hconstant hlookup =>
      have hcontains : env.contains x = false := by rw [Env.contains, hlookup]; rfl
      refine (walks_openedName h.stands h.holds x).imp ?_
      rintro J s₁ - - (⟨hopened, v, rfl⟩ | ⟨hopened, hJ⟩)
      · exact .assumed (hassumed.2 ⟨hconstant, .inr hopened⟩) v
      · refine .used (fun ha => ?_) hJ
        rcases (hassumed.1 ha).2 with hc | hc
        · rw [hcontains] at hc
          cases hc
        · exact hopened hc

end Names

/-! ## Groups -/

theorem sum_filterMap {α β : Type} (g : α → Option β) (w : β → Multiset Expr) (l : List α) :
    (l.map fun a => (g a).elim 0 w).sum = ((l.filterMap g).map w).sum := by
  induction l with
  | nil => rfl
  | cons a l ih => cases h : g a <;> simp [h, ih]

theorem Deferral.worth_parts (d : Deferral) :
    (d.group.parts.map Expr.worth).sum =
      (d.pendings.map Pending.worth).sum + (d.group.computed.map Expr.worth).sum := by
  have hpending : ∀ b : String × Binding Expr, (d.pending b.1 b.2).worth = b.2.expr?.elim 0 Expr.worth := by
    rintro ⟨name, _ | _ | _⟩ <;> rfl
  have hstatics : (d.group.statics.map fun b => (d.pending b.1 b.2).worth).sum =
      ((d.group.statics.filterMap fun b => b.2.expr?).map Expr.worth).sum := by
    simp only [hpending]
    exact sum_filterMap _ _ _
  have hsources : (d.group.sources.map fun e => (⟨d.scope :: d.ctx.scopes, d.ctx.mono, .expr e⟩ : Pending).worth).sum =
      (d.group.sources.map Expr.worth).sum := rfl
  rw [Bindings.parts, pendings, List.map_append, List.map_append, List.map_append, List.map_map, List.map_map,
    List.sum_append, List.sum_append, List.sum_append]
  exact congrArg₂ _ (congrArg₂ _ hstatics.symm hsources.symm) rfl

section Groups
variable {env : Env} {root : Expr} {depth : Nat} {run : Runner} {d : Deferral} {M : List String} {R : Nat}
  {s s' : State}

/-- The walk is at the parts of a group that was put off, of which `R` expressions and those that wait are left. -/
structure InGroup (env : Env) (root : Expr) (depth : Nat) (d : Deferral) (M : List String) (R : Nat) (s : State) :
    Prop where
  told : Event.deferred d ∈ s.history
  above : ∀ i ∈ d.ctx.forcing, i < d.first
  room : d.first + d.size ≤ s.size
  stands : Stands env s.history s.size d.ctx.forcing M d.ctx.scopes
  holds : Holds env root d.ctx.forcing s
  fits : 3 * (R + s.load) + 2 ≤ depth

theorem InGroup.later (h : InGroup env root depth d M R s) (hs : Holds env root d.ctx.forcing s')
    (hlater : Later s s') : InGroup env root depth d M R s' := by
  obtain ⟨X, hadvance⟩ := hlater
  have := hadvance.load_le
  have := h.fits
  exact ⟨hadvance.mem h.told, h.above, h.room.trans hadvance.size,
    h.stands.mono (fun _ => hadvance.mem) hadvance.size fun _ hx => hx, hs, by omega⟩

section Part
variable {p : Expr} (h : InGroup env root depth d M R s) (hp : p ∈ root.all) (hM : ∀ x ∈ p.mentioned, x ∈ M)
  (hR : p.worth.card ≤ R)
include h hp hM hR

theorem InGroup.visitBody : Visit env root depth (d.ctx.enter d.body) p s := by
  have := h.fits
  exact ⟨hp, Deferral.stands_body h.told h.above (h.stands.mono (fun _ he => he) le_rfl hM) h.room, h.holds, by omega⟩

theorem InGroup.visitComputed : Visit env root depth (d.ctx.enter d.scope) p s := by
  have := h.fits
  exact ⟨hp, Deferral.stands_group h.told h.above (h.stands.mono (fun _ he => he) le_rfl hM) h.room, h.holds, by omega⟩

end Part

theorem InGroup.request (h : InGroup env root depth d M R s) {i : Nat} (hi : d.has i = true) :
    Request env root depth d.ctx i s := by
  refine ⟨Deferral.asks_first h.told h.above hi, h.holds, fun p _ => ?_⟩
  have := p.delay_le
  have := h.fits
  omega

/-- A slot of the group is done. -/
structure Done (env : Env) (d : Deferral) (s : State) (i : Nat) (J : Judgment) : Prop where
  fulfils : ∀ p, d.pendings[i - d.first]? = some p → Fulfils env (Told s.history) p J
  settled : ∀ p, s.slot? i ≠ some (.deferred p)

theorem Done.later {i : Nat} {J : Judgment} (h : Done env d s i J) (hlater : Later s s') : Done env d s' i J := by
  obtain ⟨X, hadvance⟩ := hlater
  refine ⟨fun p hp => (h.fulfils p hp).mono fun e _ => Told.mono fun _ => hadvance.mem, fun p hp => ?_⟩
  exact h.settled p (hadvance.waits i p hp)

theorem walks_forceSlot (hrun : Carries env root depth run) (h : InGroup env root depth d M R s) {i : Nat}
    (hi : d.has i = true) : Walks env root d.ctx.forcing s (run d.ctx (.force i)) 0 fun s' J => Done env d s' i J := by
  refine (hrun.force (h.request hi)).imp fun J s' hs' hlater hJ => ?_
  have htold := (h.later hs' hlater).told
  have hidle : i ∉ d.ctx.forcing := fun hmem => by
    have := h.above i hmem
    have := d.has_iff.1 hi
    omega
  have hslot := hJ.forced hidle
  obtain ⟨p, x, hp, -, hx, hphase⟩ := hs'.slot htold hi
  obtain rfl : x = .forced J := Option.some.inj (hx.symm.trans hslot)
  refine ⟨fun q hq => ?_, fun q hq => ?_⟩
  · obtain rfl : p = q := Option.some.inj (hp.symm.trans hq)
    exact hphase.2
  · rw [hslot] at hq
    cases hq

theorem boundTypes_eq {ns : NamedSlots} {bs : List (String × Judgment)} (h : List.Forall₂ (fun n b => b.1 = n.1) ns bs)
    (js : List Judgment) :
    bs.map (fun b => (b.1, b.2.ty)) = (ns.map (·.1)).zip ((bs.map (·.2) ++ js).map (·.ty)) := by
  induction h with
  | nil => rfl
  | cons hab _ ih => simp [hab, ih]

theorem forall₂_pendings {js : List Judgment} (h : List.Forall₂ (Done env d s) (List.range' d.first d.size) js) :
    List.Forall₂ (Fulfils env (Told s.history)) d.pendings js := by
  have hlength : d.pendings.length = js.length := by
    rw [d.length_pendings, ← h.length_eq, List.length_range']
  refine List.forall₂_iff_get.2 ⟨hlength, fun k hk hk' => ?_⟩
  have hdone := (List.forall₂_iff_get.1 h).2 k (by rw [List.length_range', ← d.length_pendings]; exact hk) hk'
  have hslot : (List.range' d.first d.size).get ⟨k, by rw [List.length_range', ← d.length_pendings]; exact hk⟩ =
      d.first + k := by simp
  rw [hslot] at hdone
  refine hdone.fulfils _ ?_
  rw [Nat.add_sub_cancel_left]
  exact List.getElem?_eq_getElem hk

theorem walks_forceGroup (hrun : Carries env root depth run) (h : InGroup env root depth d M R s) :
    Walks env root d.ctx.forcing s (forceGroup run d.ctx d.toGroup) 0 fun s' r =>
      (∀ i, d.has i = true → ∀ p, s'.slot? i ≠ some (.deferred p)) ∧ r.1 = boundTypes d.group r.2 ∧
        List.Forall₂ (Fulfils env (Told s'.history)) d.pendings r.2 := by
  have hslots : ∀ i ∈ d.names.map (·.2) ++ d.sources, d.has i = true := by
    intro i hi
    rw [d.slots_eq, List.mem_range'_1] at hi
    exact d.has_iff.2 hi
  have hnames : Walks env root d.ctx.forcing s
      (d.names.mapM fun n => return (n.1, ← run d.ctx (.force n.2))) 0 fun s₁ bs =>
        List.Forall₂ (fun n b => b.1 = n.1 ∧ Done env d s₁ n.2 b.2) d.names bs := by
    refine (walks_mapM (fun n b _ _ hb hlater => ⟨hb.1, hb.2.later hlater⟩) (fun _ => 0) h.holds
      fun n hn s₁ h₁ hlater => ?_).account (by simp)
    have hn := hslots n.2 (List.mem_append_left _ (List.mem_map_of_mem hn))
    exact (walks_forceSlot hrun (h.later h₁ hlater) hn).last fun J s₂ h₂ _ hJ => walks_pure h₂ ⟨rfl, hJ⟩
  refine hnames.step fun bs s₁ h₁ hlater₁ hbs => ?_
  have hsources : Walks env root d.ctx.forcing s₁ (d.sources.mapM fun slot => run d.ctx (.force slot)) 0 fun s₂ js =>
      List.Forall₂ (Done env d s₂) d.sources js := by
    refine (walks_mapM (fun i J _ _ hJ hlater => hJ.later hlater) (fun _ => 0) h₁ fun i hi s₂ h₂ hlater => ?_).account
      (by simp)
    exact walks_forceSlot hrun (h.later h₂ (hlater₁.trans hlater)) (hslots i (List.mem_append_right _ hi))
  refine hsources.step fun js s₂ h₂ hlater₂ hjs => walks_pure h₂ ?_
  have hdone : List.Forall₂ (Done env d s₂) (List.range' d.first d.size) (bs.map (·.2) ++ js) := by
    rw [← d.slots_eq]
    refine List.rel_append ?_ hjs
    rw [List.forall₂_map_left_iff, List.forall₂_map_right_iff]
    exact hbs.imp fun n b hb => hb.2.later hlater₂
  refine ⟨fun i hi p hp => ?_, ?_, forall₂_pendings hdone⟩
  · have hflip : List.Forall₂ (flip (Done env d s₂)) (bs.map (·.2) ++ js) (List.range' d.first d.size) := hdone.flip
    obtain ⟨J, -, hJ⟩ := exists_of_forall₂ hflip (List.mem_range'_1.2 (d.has_iff.1 hi))
    exact hJ.settled p hp
  · have hfst : d.names.map (·.1) = d.group.names := List.zipIdx_map_fst _ _
    rw [boundTypes, ← hfst]
    exact boundTypes_eq (hbs.imp fun _ _ hb => hb.1) js

/-- What a group put off is judged when its slots are done. -/
theorem Advance.close {X : Multiset Expr} (h : Advance (s.deferred d) s' X) (hfirst : d.first = s.size)
    (hdone : ∀ i, d.has i = true → ∀ p, s'.slot? i ≠ some (.deferred p)) :
    Advance s s' ((d.pendings.map Pending.worth).sum + X) where
  history := (List.suffix_cons _ _).trans h.history
  size := by
    have := h.size
    rw [s.size_deferred] at this
    omega
  waits i p hp := by
    have hslot := h.waits i p hp
    have hlt := State.lt_size hslot
    rw [s.size_deferred] at hlt
    -- a slot that still waits is not one of the group's, so it is older than the group
    by_cases hold : i < s.size
    · rwa [s.slot?_deferred_of_lt d hold] at hslot
    · exact absurd hp (hdone i (d.has_iff.2 ⟨by omega, by omega⟩) p)
  account := by
    have hjudged : (s.deferred d).judged = s.judged := rfl
    rw [h.account, hjudged, s.pool_deferred]
    simp only [add_assoc]

theorem walks_deferGroup {ctx : Context} {g : Bindings Expr} (hsourced : g.Sourced) {k : Group → Judging Judgment}
    {X : Multiset Expr} {Q : State → Judgment → Prop}
    (h : Walks env root ctx.forcing (s.deferred ⟨ctx, g, s.size⟩) (k (Deferral.toGroup ⟨ctx, g, s.size⟩)) X fun s' J =>
      (∀ i, Deferral.has ⟨ctx, g, s.size⟩ i = true → ∀ p, s'.slot? i ≠ some (.deferred p)) ∧ Q s' J) :
    Walks env root ctx.forcing s (deferGroup ctx g >>= k)
      (((Deferral.pendings ⟨ctx, g, s.size⟩).map Pending.worth).sum + X) Q := by
  obtain ⟨J, s', hrun, hs', hadvance, hdone, hJ⟩ := h
  exact ⟨J, s', (runs_deferGroup_eq ctx hsourced s).bind hrun, hs', hadvance.close rfl hdone, hJ⟩

theorem Visit.inGroup {ctx : Context} {e : Expr} {g : Bindings Expr} (h : Visit env root (depth + 1) ctx e s)
    (hgroup : e.form.group? = some g)
    (hR : ((Deferral.pendings ⟨ctx, g, s.size⟩).map Pending.worth).sum.card + R + 1 ≤ e.worth.card) :
    InGroup env root depth ⟨ctx, g, s.size⟩ e.mentioned R (s.deferred ⟨ctx, g, s.size⟩) := by
  have hmem : ∀ ev ∈ s.history, ev ∈ (s.deferred ⟨ctx, g, s.size⟩).history := fun _ he => List.mem_cons_of_mem _ he
  have hsize := s.size_deferred ⟨ctx, g, s.size⟩
  have hmentioned : ∀ x ∈ Deferral.mentioned ⟨ctx, g, s.size⟩, x ∈ e.mentioned := by
    intro x hx
    obtain ⟨p, hp, hx⟩ := List.mem_flatMap.1 hx
    exact Expr.mem_mentioned_of_part (Form.mem_parts_of_group hgroup hp) hx
  have hplaced : Deferral.Placed env root s.history ⟨ctx, g, s.size⟩ :=
    ⟨h.stands.mono (fun _ he => he) le_rfl hmentioned, h.holds.live, e, h.mem, hgroup⟩
  refine ⟨List.mem_cons_self, h.holds.live, hsize.ge, h.stands.mono hmem (by omega) fun _ hx => hx,
    h.holds.defer rfl hplaced, ?_⟩
  -- what is put off counts as load now, and was part of the worth of `e` before
  have := h.fits
  have hload : (s.deferred ⟨ctx, g, s.size⟩).load =
      s.load + ((Deferral.pendings ⟨ctx, g, s.size⟩).map Pending.worth).sum.card := by
    rw [State.load, s.pool_deferred, Multiset.card_add]
    rfl
  omega

end Groups

end Judging

end NixTyping
