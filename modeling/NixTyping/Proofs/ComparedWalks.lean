import Mathlib
import NixTyping.Proofs.ComparedStates
/-!
# Two walks over an expression

For each form of expression it is said once what the two walks of a `Comparison` do with
it; the whole walks follow by induction on their depth (`runners_runTo`).

At the end the one judgment is the other with its variables shifted and its labels
changed, and its types are issued by the walk (`outcomes_runTo`). A renamed parameter
(`RenamedParameter`), an expression inside of another one (`Wrappers`) and other labels in
the environment (`IssuedVariables`) are cases of it.
-/

namespace NixTyping

open Judging

/-! ## Names out of opened records -/

/-- The field that a record that is opened has for a name. -/
def openedField (x : String) (r : Option KnownRecord) : Option (Ty × Origin) := do
  let r ← r
  return (← findKey x r.fields, r.origin)

theorem openedName_of_found {ctx : Context} {x : String} {f : Ty × Origin}
    (h : ctx.opened.findSome? (openedField x) = some f) : openedName ctx x = instanceOf f.1 f.2 := by
  unfold openedField at h
  simp only [openedName, h]

theorem openedName_of_not_found {ctx : Context} {x : String} (h : ctx.opened.findSome? (openedField x) = none) :
    openedName ctx x = (if ctx.opened.isEmpty then do return .reference x (← freshTy)
      else do Judging.note (.leftUnknown x); unknown) := by
  unfold openedField at h
  simp only [openedName, h]

theorem rel_findSome? {α β γ δ : Type} {R : α → β → Prop} {S : γ → δ → Prop} {f : α → Option γ} {g : β → Option δ}
    {l : List α} {l' : List β} (h : List.Forall₂ R l l') (hfg : ∀ a b, R a b → Option.Rel S (f a) (g b)) :
    Option.Rel S (l.findSome? f) (l'.findSome? g) := by
  induction h with
  | nil => exact .none
  | @cons a b l l' hab _ ih =>
    have hhead := hfg a b hab
    rw [List.findSome?_cons, List.findSome?_cons]
    generalize f a = c, g b = d at hhead
    cases hhead with
    | none => exact ih
    | some hcd => exact .some hcd

theorem rel_getElem? {α β : Type} {R : α → β → Prop} {xs : List α} {ys : List β} (h : List.Forall₂ R xs ys) (i : Nat) :
    Option.Rel R xs[i]? ys[i]? := by
  induction h generalizing i with
  | nil => exact .none
  | cons hx _ ih =>
    cases i with
    | zero => exact .some hx
    | succ i => exact ih i

namespace Comparison
variable {C : Comparison}

/-- The runners carry out a task side by side. What a slot stands for is judged at the place of the slot. -/
structure Runners (C : Comparison) (run run' : Runner) : Prop where
  expr : ∀ {p : Place} {w : World} {ctx ctx' : Context} {e : Expr},
    C.Contexts p w.next ctx ctx' → e.Everywhere C.Suits →
    C.Sim w (run ctx (.expr e)) (run' ctx' (.expr (C.R.expr p.stage e))) fun w₁ => C.Judgments p w₁.next
  force : ∀ {w : World} {ctx ctx' : Context} (i : Nat), C.Forcing ctx ctx' →
    C.Sim w (run ctx (.force i)) (run' ctx' (.force (C.base.index i)))
      fun w₁ J J' => ∃ p, w₁.book i = some p ∧ C.Judgments p w₁.next J J'

variable {run run' : Runner} {p : Place} {w : World} {ctx ctx' : Context}

theorem judgments_mono (p : Place) (w₁ w₂ : World) (J J' : Judgment) (hw : w₁ ≤ w₂) (h : C.Judgments p w₁.next J J') :
    C.Judgments p w₂.next J J' := h.mono hw.1

/-! ## Names -/

section Names

theorem sim_letBound (hrun : C.Runners run run') (hctx : C.Forcing ctx ctx') (i : Nat) {M M' : VarSet}
    (hM : (C.kin w.next).mono M M') :
    C.Sim w (letBound run ctx i M) (letBound run' ctx' (C.base.index i) M')
      fun w₁ b b' => (C.kin w₁.next).ty (.var b.1) (.var b'.1) ∧ (C.kin w₁.next).ty b.2 b'.2 := by
  refine sim_fresh.bind fun w₁ v v' hw₁ hv => ?_
  refine (hrun.force i hctx).bind fun w₂ J J' hw₂ hJ => ?_
  obtain ⟨p, -, hJ⟩ := hJ
  have hv₂ := kin_ty_mono hw₂.1 hv
  by_cases hrecord : ∃ fs o, J.ty = .record fs o
  · obtain ⟨fs, o, hty⟩ := hrecord
    have hty' := hJ.ty
    rw [hty] at hty'
    obtain ⟨fs', heq, hfs⟩ := kin_ty_record hty'
    rw [hty, heq]
    have hM₂ := kin_mono_mono hw₂.1 (kin_mono_mono hw₁.1 hM)
    refine (sim_remember hv₂ (records_letBound hM₂ hfs)).bind fun w₃ _ _ hw₃ _ => ?_
    exact sim_pure ⟨kin_ty_mono hw₃.1 hv₂, kin_ty_mono hw₃.1 ((C.kin w₂.next).record o hfs)⟩
  · have hnone : ∀ fs o, J.ty ≠ .record fs o := fun fs o heq => hrecord ⟨fs, o, heq⟩
    have hty := hJ.ty
    have hnone' := kin_ty_not_record hty hnone
    generalize J.ty = t, J'.ty = t' at hty hnone hnone'
    cases t with
    | record fs o => exact absurd rfl (hnone fs o)
    | _ =>
      cases t' with
      | record fs o => exact absurd rfl (hnone' fs o)
      | _ => exact sim_pure ⟨hv₂, hty⟩

theorem sim_ambientName {x : String} (hx : C.Names p x x) {schemes : List Scheme}
    (hschemes : C.env.lookup x = some schemes) :
    C.Sim w (ambientName x schemes) (ambientName x (schemes.map (·.relabel C.labels))) fun w₁ =>
      C.Judgments p w₁.next := by
  refine sim_fresh.bind fun w₁ v v' hw hv => ?_
  have hreference :
      C.Sim w₁ (pure (.reference x (.var v))) (pure (.reference x (.var v'))) fun w₂ => C.Judgments p w₂.next :=
    sim_pure (Judgment.related_reference hx hv)
  -- a record is remembered only where it is the one scheme of the name
  rcases schemes with _ | ⟨⟨vars, t⟩, _ | ⟨σ, schemes⟩⟩
  · exact hreference
  · cases t with
    | record fields o =>
      have hr : C.Records w₁.next ⟨fields, .ambient vars⟩
          ⟨fields.map fun f => (f.1, f.2.relabel C.labels), .ambient (vars.map C.labels)⟩ :=
        records_ambient (.scheme hschemes List.mem_cons_self)
      simp only [List.map_cons, List.map_nil, Scheme.relabel, Ty.relabel_record]
      refine (sim_remember hv hr).bind fun w₂ _ _ hw₂ _ => ?_
      exact sim_pure (Judgment.related_reference hx (kin_ty_mono hw₂.1 hv))
    | _ => exact hreference
  · cases t <;> exact hreference

theorem sim_openedName (hctx : C.Contexts p w.next ctx ctx') {x : String} (hx : C.Names p x x) :
    C.Sim w (openedName ctx x) (openedName ctx' x) fun w₁ => C.Judgments p w₁.next := by
  have hopened := hctx.scopes.opened
  change List.Forall₂ _ ctx.opened ctx'.opened at hopened
  have hfield : Option.Rel (fun f f' => C.Taken w.next f.2 f'.2 f.1 f'.1) (ctx.opened.findSome? (openedField x))
      (ctx'.opened.findSome? (openedField x)) := by
    refine rel_findSome? hopened fun r r' hr => ?_
    cases hr with
    | none => exact .none
    | @some r r' hr =>
      have hfound := rel_findKey hr.fields x
      simp only [openedField, Option.bind_eq_bind, Option.bind_some]
      generalize findKey x r.fields = f, findKey x r'.fields = f' at hfound
      cases hfound with
      | none => exact .none
      | some hf => exact .some hf
  generalize hf : ctx.opened.findSome? (openedField x) = f, hf' : ctx'.opened.findSome? (openedField x) = f' at hfield
  cases hfield with
  | some htaken =>
    rw [openedName_of_found hf, openedName_of_found hf']
    exact sim_instanceOf htaken p
  | none =>
    have hempty : ctx'.opened.isEmpty = ctx.opened.isEmpty := by
      rw [Bool.eq_iff_iff, List.isEmpty_iff_length_eq_zero, List.isEmpty_iff_length_eq_zero, hopened.length_eq]
    rw [openedName_of_not_found hf, openedName_of_not_found hf', hempty]
    split
    · exact sim_freshTy.bind fun _ _ _ _ ht => sim_pure (Judgment.related_reference hx ht)
    · exact (sim_note _ _).bind fun _ _ _ _ _ => sim_unknown p

theorem sim_reference (hrun : C.Runners run run') (hctx : C.Contexts p w.next ctx ctx') {x : String} (hx : C.Refers x) :
    C.Sim w (reference C.env run ctx x) (reference C.env' run' ctx' (C.R.name p.stage x)) fun w₁ =>
      C.Judgments p w₁.next := by
  have hlexical := hctx.scopes.lexical x hx
  have hsame := hctx.scopes.same x
  have hassumed : (¬ ∃ i M cs, lexicalIn ctx.scopes x = some (.group i M cs)) → C.Names p x (C.R.name p.stage x) :=
    fun hfree => ⟨hx, fun hgroup => hfree ((hctx.scopes.grouped x).1 hgroup), rfl⟩
  have hfound : ctx.lexical? x = lexicalIn ctx.scopes x := rfl
  have hfound' : ctx'.lexical? (C.R.name p.stage x) = lexicalIn ctx'.scopes (C.R.name p.stage x) := rfl
  unfold reference
  rw [hfound, hfound']
  generalize lexicalIn ctx.scopes x = l, lexicalIn ctx'.scopes (C.R.name p.stage x) = l' at hlexical hsame hassumed
  cases hlexical with
  | none =>
    have hname := hassumed (by simp)
    rw [hsame rfl] at hname ⊢
    rw [hx.env]
    cases hconst : constant? x with
    | some t =>
      obtain ⟨q, rfl⟩ := constant?_prim hconst
      exact sim_pure (Judgment.related_ofTy ((C.kin w.next).prim q))
    | none =>
      cases hlookup : C.env.lookup x with
      | some schemes => exact sim_ambientName hname hlookup
      | none => exact sim_openedName hctx hname
  | some hl =>
    cases hl with
    | param =>
      have hname := hassumed (by simp)
      exact sim_freshTy.bind fun _ _ _ _ ht => sim_pure (Judgment.related_reference hname ht)
    | letBody i mono =>
      have hname := hassumed (by simp)
      exact (sim_letBound hrun hctx.forcing i mono).bind fun _ _ _ _ hb =>
        sim_pure (Judgment.related_reference hname hb.1)
    | group i cs mono =>
      -- whether the slot is in the component that is being computed depends on the slots only
      simp only [Base.inOwnComponent hctx.forcing]
      split
      · refine (hrun.force i hctx.forcing).bind fun _ J J' _ hJ => ?_
        obtain ⟨q, -, hJ⟩ := hJ
        exact sim_pure (Judgment.related_ofTy hJ.ty)
      · refine (sim_letBound hrun hctx.forcing i mono).bind fun w₁ b b' hw hb => sim_pure ?_
        exact Judgment.related_constrained ((C.kin w₁.next).implicit hb.1 (kin_mono_mono hw.1 mono) hb.2) hb.1

end Names

/-! ## Groups -/

section Groups
variable {g : Bindings Expr}

/-- The slot was filled at a place or in the definitions of a group there. -/
def Placed (C : Comparison) (p : Place) (names : List String) (w : World) (i : Nat) : Prop :=
  ∃ q, w.book i = some q ∧ (q = p ∨ q = C.among p names)

/-- What comes of a group: its names, its scope, and a slot for each of its bindings and sources. -/
structure Groups (C : Comparison) (p : Place) (g : Bindings Expr) (M M' : VarSet) (w : World) (G G' : Group) :
    Prop where
  names : G.names.map (·.1) = g.names
  names' : G'.names = C.base.names G.names
  sources : G'.sources = G.sources.map C.base.index
  scope : ∃ cs, G.scope = .group G.names M cs ∧ G'.scope = .group G'.names M' (C.base.components cs)
  bindings : ∀ n ∈ G.names, C.Placed p g.names w n.2
  placed : ∀ i ∈ G.sources, C.Placed p g.names w i

theorem Placed.later {names : List String} {w' : World} {i : Nat} (h : C.Placed p names w i) (hw : w ≤ w') :
    C.Placed p names w' i := by
  obtain ⟨q, hq, hplace⟩ := h
  exact ⟨q, hw.2 i q hq, hplace⟩

theorem Groups.later {M M' : VarSet} {w' : World} {G G' : Group} (h : C.Groups p g M M' w G G') (hw : w ≤ w') :
    C.Groups p g M M' w' G G' :=
  { h with
    bindings := fun n hn => (h.bindings n hn).later hw
    placed := fun i hi => (h.placed i hi).later hw }

theorem Groups.scoped {M M' : VarSet} {G G' : Group} (h : C.Groups p g M M' w G G') {k : Nat}
    (hM : (C.kin k).mono M M') :
    C.Scoped k G.scope G'.scope ∧ scopeNames G.scope = g.names ∧ C.enter p G.scope = C.among p g.names := by
  obtain ⟨cs, hscope, hscope'⟩ := h.scope
  rw [hscope, hscope', h.names']
  refine ⟨.group G.names cs hM, h.names, ?_⟩
  show C.among p (G.names.map (·.1)) = _
  rw [h.names]

theorem sim_reserveNames (names : List String) :
    C.Sim w (names.mapM fun name => return (name, ← reserve)) (names.mapM fun name => return (name, ← reserve))
      fun _ ns ns' => ns' = C.base.names ns ∧ ns.map (·.1) = names := by
  have hmap : C.Sim w (names.mapM fun name => return (name, ← reserve))
      ((names.map fun name => name).mapM fun name => return (name, ← reserve))
      fun _ ns ns' => List.Forall₂ (fun (x : String) (n : String × Nat) => x = n.1) names ns ∧
        List.Forall₂ (fun n n' => n' = (n.1, C.base.index n.2)) ns ns' := by
    refine sim_mapM_of _ (fun _ _ _ _ _ h => h) fun x _ w₁ _ => ?_
    refine sim_reserve.bind fun _ i i' _ hi => sim_pure ⟨rfl, ?_⟩
    rw [hi]
  rw [List.map_id'] at hmap
  exact hmap.imp fun _ ns ns' _ h => ⟨eq_map_of_forall₂ h.2, (eq_map_of_forall₂ h.1.flip).symm⟩

theorem sim_reserveSources {γ δ : Type} (xs : List γ) (f : γ → δ) :
    C.Sim w (xs.mapM fun _ => reserve) ((xs.map f).mapM fun _ => reserve)
      fun _ is is' => is' = is.map C.base.index ∧ is.length = xs.length := by
  have hmap : C.Sim w (xs.mapM fun _ => reserve) ((xs.map f).mapM fun _ => reserve) fun _ is is' =>
      List.Forall₂ (fun _ _ => True) xs is ∧ List.Forall₂ (fun i i' => i' = C.base.index i) is is' :=
    sim_mapM_of f (fun _ _ _ _ _ h => h) fun _ _ _ _ => sim_reserve.imp fun _ _ _ _ hi => ⟨trivial, hi⟩
  exact hmap.imp fun _ is is' _ h => ⟨eq_map_of_forall₂ h.2, h.1.length_eq.symm⟩

/-! A group puts its sources and its bindings in the slots that it reserved for them. -/

section Placing
variable {sc sc' : Scope} {names : List String}

theorem sim_placeSources (hctx : C.Contexts p w.next ctx ctx')
    (hsc : C.Scopes (C.among p names) w.next (sc :: ctx.scopes) (sc' :: ctx'.scopes)) {es : List Expr}
    (hes : ∀ e ∈ es, e.Everywhere C.Suits) {slots : List Nat} (hlength : slots.length = es.length) :
    C.Sim w ((es.zip slots).forM fun x => changeSlots (·.fill x.2 ⟨sc :: ctx.scopes, ctx.mono, .expr x.1⟩))
      (((es.map (C.R.expr (C.among p names).stage)).zip (slots.map C.base.index)).forM fun x =>
        changeSlots (·.fill x.2 ⟨sc' :: ctx'.scopes, ctx'.mono, .expr x.1⟩))
      fun w₁ _ _ => ∀ i ∈ slots, C.Placed p names w₁ i := by
  rw [List.zip_map]
  refine Sim.imp (P := fun w₁ _ _ => ∀ x ∈ es.zip slots, C.Placed p names w₁ x.2)
    (sim_forM _ (fun _ _ _ hw h => h.later hw) fun x hx w₁ hw => ?_) fun w₁ _ _ _ hall i hi => ?_
  · have hwaiting := Waiting.expr (hsc.mono hw.1) (hctx.later hw.1).mono (hes x.1 (List.of_mem_zip hx).1)
    exact (sim_fill x.2 hwaiting).imp fun _ _ _ _ hq => ⟨_, hq, .inr rfl⟩
  · obtain ⟨e, he⟩ := exists_mem_zip hlength hi
    exact hall _ he

theorem sim_place (hctx : C.Contexts p w.next ctx ctx')
    (hsc : C.Scopes (C.among p names) w.next (sc :: ctx.scopes) (sc' :: ctx'.scopes)) (sources : List Nat)
    (name : String) (i : Nat) {b : Binding Expr} (hb : ∀ e, b.expr? = some e → e.Everywhere C.Suits) :
    C.Sim w
      (do
        let pending ← deferredBinding ctx sc sources name b
        changeSlots (·.fill i pending))
      (do
        let pending ← deferredBinding ctx' sc' (sources.map C.base.index) name
          (C.R.binding p.stage (C.among p names).stage b)
        changeSlots (·.fill (C.base.index i) pending))
      fun w₁ _ _ => C.Placed p names w₁ i := by
  cases b with
  | expr e => exact (sim_fill i (.expr hsc hctx.mono (hb e rfl))).imp fun _ _ _ _ hq => ⟨_, hq, .inr rfl⟩
  | «inherit» e => exact (sim_fill i (.expr hctx.scopes hctx.mono (hb e rfl))).imp fun _ _ _ _ hq => ⟨_, hq, .inl rfl⟩
  | inheritFrom n =>
    simp only [Renaming.binding, deferredBinding, List.getElem?_map]
    cases sources[n]? with
    | none => exact fun _ _ _ => .error fun _ => rfl
    | some source =>
      exact (sim_fill i (.field _ _ _ _ source name)).imp fun _ _ _ _ hq => ⟨_, hq, .inr rfl⟩

theorem sim_placeBindings (hctx : C.Contexts p w.next ctx ctx')
    (hsc : C.Scopes (C.among p names) w.next (sc :: ctx.scopes) (sc' :: ctx'.scopes)) (sources : List Nat)
    {bs : List (String × Binding Expr)} (hbs : ∀ b ∈ bs, ∀ e, b.2.expr? = some e → e.Everywhere C.Suits)
    {slots : NamedSlots} (hlength : slots.length = bs.length) :
    C.Sim w
      ((bs.zip slots).forM fun x => do
        let pending ← deferredBinding ctx sc sources x.1.1 x.1.2
        changeSlots (·.fill x.2.2 pending))
      (((bs.map fun b => (b.1, C.R.binding p.stage (C.among p names).stage b.2)).zip (C.base.names slots)).forM
        fun x => do
          let pending ← deferredBinding ctx' sc' (sources.map C.base.index) x.1.1 x.1.2
          changeSlots (·.fill x.2.2 pending))
      fun w₁ _ _ => ∀ n ∈ slots, C.Placed p names w₁ n.2 := by
  rw [Base.names, List.zip_map]
  refine Sim.imp (P := fun w₁ _ _ => ∀ x ∈ bs.zip slots, C.Placed p names w₁ x.2.2)
    (sim_forM _ (fun _ _ _ hw h => h.later hw) fun x hx w₁ hw => ?_) fun w₁ _ _ _ hall n hn => ?_
  · exact sim_place (hctx.later hw.1) (hsc.mono hw.1) sources x.1.1 x.2.2 (hbs x.1 (List.of_mem_zip hx).1)
  · obtain ⟨b, hb⟩ := exists_mem_zip hlength hn
    exact hall _ hb

end Placing

/-- Both walks put the bindings of a group in their slots. -/
theorem sim_deferGroup (hctx : C.Contexts p w.next ctx ctx') (hnew : C.R.new ∉ g.names)
    (hcomponents : (Dependencies.ofBindings (C.R.group p.stage (C.R.under g.names p.stage) g)).components =
      (Dependencies.ofBindings g).components)
    (hsuits : ∀ e ∈ g.parts, e.Everywhere C.Suits) :
    C.Sim w (deferGroup ctx g) (deferGroup ctx' (C.R.group p.stage (C.R.under g.names p.stage) g))
      fun w₁ => C.Groups p g ctx.mono ctx'.mono w₁ := by
  unfold deferGroup
  simp only [Renaming.names_group, hcomponents]
  rw [Renaming.group_eq]
  refine (sim_record _ _).bind fun w₀ _ _ hw₀ _ => ?_
  refine (sim_reserveNames g.names).bind fun w₁ names _ hw₁ hnames => ?_
  obtain ⟨rfl, hnames⟩ := hnames
  refine (sim_reserveSources g.sources _).bind fun w₂ sources _ hw₂ hsources => ?_
  obtain ⟨rfl, hlength⟩ := hsources
  rw [Base.components_zip]
  generalize (names.map (·.2) ++ sources).zip (Dependencies.ofBindings g).components = cs
  have hctx₂ := hctx.later (hw₀.trans (hw₁.trans hw₂)).1
  have hsc : C.Scopes (C.among p g.names) w₂.next (.group names ctx.mono cs :: ctx.scopes)
      (.group (C.base.names names) ctx'.mono (C.base.components cs) :: ctx'.scopes) := by
    have henter := hctx₂.scopes.enter (.group names cs hctx₂.mono) (by rwa [scopeNames, hnames])
    rwa [Comparison.enter, hnames] at henter
  have hnumber : names.length = g.statics.length := by
    simpa [Bindings.names] using congrArg List.length hnames
  have hsuitsSources : ∀ e ∈ g.sources, e.Everywhere C.Suits := fun e he => hsuits e (by simp [Bindings.parts, he])
  refine (sim_placeSources hctx₂ hsc hsuitsSources hlength).bind fun w₃ _ _ hw₃ hplaced => ?_
  have hsuitsBindings : ∀ b ∈ g.statics, ∀ e, b.2.expr? = some e → e.Everywhere C.Suits :=
    fun b hb e he => hsuits e (Bindings.mem_parts_of_static hb he)
  refine (sim_placeBindings (hctx₂.later hw₃.1) (hsc.mono hw₃.1) sources hsuitsBindings hnumber).bind ?_
  intro w₄ _ _ hw₄ hbindings
  exact sim_pure ⟨hnames, rfl, rfl, ⟨cs, rfl, rfl⟩, hbindings, fun i hi => (hplaced i hi).later hw₄⟩

theorem sim_exprs (hrun : C.Runners run run') (hctx : C.Contexts p w.next ctx ctx') {es : List Expr}
    (hes : ∀ e ∈ es, e.Everywhere C.Suits) :
    C.Sim w (es.mapM fun e => run ctx (.expr e)) ((es.map (C.R.expr p.stage)).mapM fun e => run' ctx' (.expr e))
      fun w₁ => List.Forall₂ (C.Judgments p w₁.next) := by
  refine sim_mapM _ (judgments_mono p) fun e he w₁ hw => ?_
  exact hrun.expr (hctx.later hw.1) (hes e he)

theorem sim_dynamics (hrun : C.Runners run run') (hctx : C.Contexts p w.next ctx ctx') (st : Renaming.Stage)
    (hsuits : ∀ e ∈ g.parts, e.Everywhere C.Suits) :
    C.Sim w (dynamics run ctx g) (dynamics run' ctx' (C.R.group st p.stage g)) fun w₁ =>
      List.Forall₂ (C.Judgments p w₁.next) := by
  show C.Sim w (g.computed.mapM fun e => run ctx (.expr e))
    ((C.R.group st p.stage g).computed.mapM fun e => run' ctx' (.expr e)) _
  rw [Renaming.computed_group]
  exact sim_exprs hrun hctx fun e he => hsuits e (List.mem_append_right _ he)

/-- The computed names of a group and their values, which its own names are in sight of. -/
theorem Groups.sim_dynamics {G G' : Group} (hG : C.Groups p g ctx.mono ctx'.mono w G G') (hrun : C.Runners run run')
    (hctx : C.Contexts p w.next ctx ctx') (hnew : C.R.new ∉ g.names) (hsuits : ∀ e ∈ g.parts, e.Everywhere C.Suits) :
    C.Sim w (dynamics run (ctx.enter G.scope) g)
      (dynamics run' (ctx'.enter G'.scope) (C.R.group p.stage (C.R.under g.names p.stage) g))
      fun w₁ => List.Forall₂ (C.Judgments p w₁.next) := by
  obtain ⟨hscoped, hnames, henter⟩ := hG.scoped hctx.mono
  have hinner := hctx.enter hscoped (by rwa [hnames])
  rw [henter] at hinner
  have hsim : C.Sim w (dynamics run (ctx.enter G.scope) g)
      (dynamics run' (ctx'.enter G'.scope) (C.R.group p.stage (C.among p g.names).stage g))
      fun w₁ => List.Forall₂ (C.Judgments (C.among p g.names) w₁.next) :=
    Comparison.sim_dynamics hrun hinner p.stage hsuits
  exact hsim.imp fun _ _ _ _ hjs => hjs.imp fun _ _ hJ => hJ.leave

/-- What a slot of a group stands for is judged at the place around the group. -/
theorem sim_forcePlaced (hrun : C.Runners run run') (hctx : C.Forcing ctx ctx') {names : List String} {i : Nat}
    (hi : C.Placed p names w i) :
    C.Sim w (run ctx (.force i)) (run' ctx' (.force (C.base.index i))) fun w₁ => C.Judgments p w₁.next := by
  refine (hrun.force i hctx).imp fun w₁ J J' hw h => ?_
  obtain ⟨q, hq, hplace⟩ := hi
  obtain ⟨q', hq', hJ⟩ := h
  obtain rfl : q' = q := Option.some.inj (hq'.symm.trans (hw.2 i q hq))
  rcases hplace with rfl | rfl
  · exact hJ
  · exact hJ.leave

theorem sim_forceGroup (hrun : C.Runners run run') (hctx : C.Forcing ctx ctx') {M M' : VarSet} {G G' : Group}
    (hG : C.Groups p g M M' w G G') :
    C.Sim w (forceGroup run ctx G) (forceGroup run' ctx' G') fun w₁ r r' =>
      r.1.map (·.1) = g.names ∧ List.Forall₂ (Keyed (C.kin w₁.next).ty) r.1 r'.1 ∧
        List.Forall₂ (C.Judgments p w₁.next) r.2 r'.2 := by
  have hbound : C.Sim w (G.names.mapM fun n => return (n.1, ← run ctx (.force n.2)))
      ((C.base.names G.names).mapM fun n => return (n.1, ← run' ctx' (.force n.2)))
      fun w₁ bs bs' => List.Forall₂ (fun n b => n.1 = b.1) G.names bs ∧
        List.Forall₂ (Keyed (C.Judgments p w₁.next)) bs bs' := by
    refine sim_mapM_of _ (fun _ _ _ _ hw h => ⟨h.1, h.2.mono hw.1⟩) fun n hn w₁ hw => ?_
    exact (sim_forcePlaced hrun hctx ((hG.bindings n hn).later hw)).bind fun _ _ _ _ hJ => sim_pure ⟨rfl, rfl, hJ⟩
  have hsources : ∀ {w₁ : World}, w ≤ w₁ → C.Sim w₁ (G.sources.mapM fun i => run ctx (.force i))
      ((G.sources.map C.base.index).mapM fun i => run' ctx' (.force i)) fun w₂ =>
        List.Forall₂ (C.Judgments p w₂.next) := by
    intro w₁ hw₁
    refine sim_mapM _ (judgments_mono p) fun i hi w₂ hw₂ => ?_
    exact sim_forcePlaced hrun hctx ((hG.placed i hi).later (hw₁.trans hw₂))
  unfold forceGroup
  rw [hG.names', hG.sources]
  refine hbound.bind fun w₁ bs bs' hw₁ hbs => ?_
  obtain ⟨hnames, hbs⟩ := hbs
  refine (hsources hw₁).bind fun w₂ js js' hw₂ hjs => sim_pure ⟨?_, ?_, List.rel_append ?_ hjs⟩
  · show (bs.map fun b => (b.1, b.2.ty)).map (·.1) = g.names
    rw [← hG.names, List.map_map, ← List.forall₂_eq_eq_eq, List.forall₂_map_left_iff, List.forall₂_map_right_iff]
    exact hnames.flip.imp fun _ _ hb => hb.symm
  · exact keyed_map hbs fun _ _ hJ => kin_ty_mono hw₂.1 hJ.ty
  · rw [List.forall₂_map_left_iff, List.forall₂_map_right_iff]
    exact hbs.imp fun _ _ hb => hb.2.mono hw₂.1

theorem judgments_later {js js' : List Judgment} {w' : World} (h : List.Forall₂ (C.Judgments p w.next) js js')
    (hw : w ≤ w') : List.Forall₂ (C.Judgments p w'.next) js js' := h.imp fun _ _ hJ => hJ.mono hw.1

theorem sim_letIn (hrun : C.Runners run run') (hctx : C.Contexts p w.next ctx ctx') {body : Expr}
    (hnew : C.R.new ∉ g.names)
    (hcomponents : (Dependencies.ofBindings (C.R.group p.stage (C.R.under g.names p.stage) g)).components =
      (Dependencies.ofBindings g).components) (hsuits : ∀ e ∈ g.parts, e.Everywhere C.Suits)
    (hbody : body.Everywhere C.Suits) :
    C.Sim w (letIn run ctx g body)
      (letIn run' ctx' (C.R.group p.stage (C.R.under g.names p.stage) g) (C.R.expr (C.R.under g.names p.stage) body))
      fun w₁ => C.Judgments p w₁.next := by
  refine (sim_deferGroup hctx hnew hcomponents hsuits).bind fun w₁ G G' hw₁ hG => ?_
  have hctx₁ := hctx.later hw₁.1
  refine (hG.sim_dynamics hrun hctx₁ hnew hsuits).bind fun w₂ extra extra' hw₂ hextra => ?_
  have hctx₂ := hctx₁.later hw₂.1
  have hinner : C.Contexts (C.within p g.names) w₂.next (ctx.enter (.letBody G.names ctx.mono))
      (ctx'.enter (.letBody G'.names ctx'.mono)) := by
    have henter := hctx₂.enter (.letBody G.names hctx₂.mono) (by rwa [scopeNames, hG.names])
    rwa [Comparison.enter, hG.names, ← hG.names'] at henter
  refine (hrun.expr hinner hbody).bind fun w₃ J J' hw₃ hJ => ?_
  refine (sim_forceGroup hrun hctx.forcing (hG.later (hw₂.trans hw₃))).bind fun w₄ r r' hw₄ hr => ?_
  obtain ⟨hnames, hbound, hjs⟩ := hr
  refine sim_pure ((hJ.mono hw₄.1).letIn hbound (List.rel_append hjs (judgments_later hextra (hw₃.trans hw₄)))
    (kin_mono_mono (hw₃.trans hw₄).1 hctx₂.mono) ?_)
  rw [hnames]
  exact binds_within hnew p

theorem sim_recSet (hrun : C.Runners run run') (hctx : C.Contexts p w.next ctx ctx') (hnew : C.R.new ∉ g.names)
    (hcomponents : (Dependencies.ofBindings (C.R.group p.stage (C.R.under g.names p.stage) g)).components =
      (Dependencies.ofBindings g).components)
    (hsuits : ∀ e ∈ g.parts, e.Everywhere C.Suits) :
    C.Sim w (recSet run ctx g) (recSet run' ctx' (C.R.group p.stage (C.R.under g.names p.stage) g))
      fun w₁ => C.Judgments p w₁.next := by
  have hdynamics : (C.R.group p.stage (C.R.under g.names p.stage) g).dynamics.isEmpty = g.dynamics.isEmpty := by
    simp [Renaming.group_eq]
  refine (sim_deferGroup hctx hnew hcomponents hsuits).bind fun w₁ G G' hw₁ hG => ?_
  refine (hG.sim_dynamics hrun (hctx.later hw₁.1) hnew hsuits).bind fun w₂ extra extra' hw₂ hextra => ?_
  refine (sim_forceGroup hrun hctx.forcing (hG.later hw₂)).bind fun w₃ r r' hw₃ hr => ?_
  obtain ⟨-, hbound, hjs⟩ := hr
  rw [hdynamics]
  exact sim_pure
    (Judgment.related_merged (List.rel_append hjs (judgments_later hextra hw₃)) ((C.kin w₃.next).ofFields hbound _))

theorem sim_plainSet (hrun : C.Runners run run') (hctx : C.Contexts p w.next ctx ctx')
    (hsuits : ∀ e ∈ g.parts, e.Everywhere C.Suits) :
    C.Sim w (plainSet run ctx g) (plainSet run' ctx' (C.R.group p.stage p.stage g)) fun w₁ =>
      C.Judgments p w₁.next := by
  have hdynamics : (C.R.group p.stage p.stage g).dynamics.isEmpty = g.dynamics.isEmpty := by
    simp [Renaming.group_eq]
  have hsources : (C.R.group p.stage p.stage g).sources = g.sources.map (C.R.expr p.stage) := by rw [Renaming.group_eq]
  have hstatics : (C.R.group p.stage p.stage g).statics =
      g.statics.map fun b => (b.1, C.R.binding p.stage p.stage b.2) := by
    rw [Renaming.group_eq]
  unfold plainSet
  rw [hdynamics, hsources, hstatics]
  refine (sim_exprs hrun hctx fun e he => hsuits e (by simp [Bindings.parts, he])).bind fun w₁ js js' hw₁ hjs => ?_
  refine Sim.bind (P := fun w₂ => List.Forall₂ (Keyed (C.Judgments p w₂.next)))
    (sim_mapM _ (fun _ _ _ _ hw h => ⟨h.1, h.2.mono hw.1⟩) ?_) ?_
  · rintro ⟨name, b⟩ hb w₂ hw₂
    have hb' : ∀ e, b.expr? = some e → e.Everywhere C.Suits :=
      fun e he => hsuits e (Bindings.mem_parts_of_static hb he)
    cases b with
    | expr e | «inherit» e =>
      exact (hrun.expr (hctx.later (hw₁.trans hw₂).1) (hb' e rfl)).bind fun _ _ _ _ hJ => sim_pure ⟨rfl, hJ⟩
    | inheritFrom i =>
      have hsource := rel_getElem? hjs i
      simp only [Renaming.binding]
      generalize js[i]? = source, js'[i]? = source' at hsource
      cases hsource with
      | none => exact (sim_unknown p).bind fun _ _ _ _ hJ => sim_pure ⟨rfl, hJ⟩
      | some hJ => exact (sim_fieldOf (kin_ty_mono hw₂.1 hJ.ty) name p).bind fun _ _ _ _ hJ => sim_pure ⟨rfl, hJ⟩
  · intro w₂ fields fields' hw₂ hfields
    refine (sim_dynamics hrun (hctx.later (hw₁.trans hw₂).1) p.stage hsuits).bind fun w₃ extra extra' hw₃ hextra => ?_
    have hfields₃ : List.Forall₂ (Keyed (C.Judgments p w₃.next)) fields fields' :=
      hfields.imp fun _ _ hf => ⟨hf.1, hf.2.mono hw₃.1⟩
    exact sim_pure (Judgment.related_set hfields₃ (List.rel_append (judgments_later hjs (hw₂.trans hw₃)) hextra) _)

end Groups

/-! ## Functions and attributes -/

section Forms

/-- A function of a name, be it the one that is renamed or another. -/
theorem sim_lambda_name (hrun : C.Runners run run') (hctx : C.Contexts p w.next ctx ctx') (id : Nat) {x : String}
    {body : Expr} (hx : x ≠ C.R.new) (hbody : body.Everywhere C.Suits) :
    C.Sim w (expression C.env run ctx (.lambda (.name x) body))
      (expression C.env' run' ctx' (C.R.formOf p.stage id (.lambda (.name x) body))) fun w₁ =>
        C.Judgments p w₁.next := by
  rw [Renaming.formOf]
  by_cases hhits : C.R.hits p.stage id x
  · obtain rfl := hhits.2.2
    rw [if_pos hhits]
    refine sim_fresh.bind fun w₁ v v' hw₁ hv => ?_
    have hinner := ((hctx.later hw₁.1).fix (.cons hv .nil)).function
    refine (hrun.expr hinner hbody).bind fun w₂ J J' hw₂ hJ => sim_pure ?_
    exact Judgment.Related.lambda hJ (binds_function p) (kin_ty_mono hw₂.1 hv)
  · have hnew : C.R.new ∉ [x] := by simpa using hx.symm
    rw [if_neg hhits]
    refine sim_fresh.bind fun w₁ v v' hw₁ hv => ?_
    have hinner := ((hctx.later hw₁.1).fix (.cons hv .nil)).enter (.params [x]) hnew
    refine (hrun.expr hinner hbody).bind fun w₂ J J' hw₂ hJ => sim_pure ?_
    exact Judgment.Related.lambda hJ (binds_within hnew p) (kin_ty_mono hw₂.1 hv)

/-- A part that may be missing. -/
theorem sim_expr? (hrun : C.Runners run run') (hctx : C.Contexts p w.next ctx ctx') {d : Option Expr}
    (hd : ∀ e ∈ d, e.Everywhere C.Suits) :
    C.Sim w (d.mapM fun e => run ctx (.expr e)) ((d.map (C.R.expr p.stage)).mapM fun e => run' ctx' (.expr e))
      fun w₁ => Option.Rel (C.Judgments p w₁.next) := by
  cases d with
  | none => exact sim_pure .none
  | some e =>
    rw [Option.map_some, Option.mapM_some, Option.mapM_some, map_eq_pure_bind, map_eq_pure_bind]
    exact (hrun.expr hctx (hd e rfl)).bind fun _ _ _ _ hJ => sim_pure (.some hJ)

theorem rel_patternFields {k : Nat} (f : Expr → Expr) (fs : List (String × Option Expr)) {vars vars' : List Nat}
    {ds ds' : List (Option Judgment)} (hvars : List.Forall₂ (fun v v' => (C.kin k).ty (.var v) (.var v')) vars vars')
    (hds : List.Forall₂ (Option.Rel (C.Judgments p k)) ds ds') :
    List.Forall₂ (Judgment.PatternField.Related (C.kin k) (C.Names p)) (patternFields fs vars ds)
      (patternFields (fs.map fun x => (x.1, x.2.map f)) vars' ds') := by
  induction fs generalizing vars vars' ds ds' with
  | nil => exact .nil
  | cons x fs ih =>
    cases hvars with
    | nil => exact .nil
    | cons hv hvars =>
      cases hds with
      | nil => exact .nil
      | cons hd hds => exact .cons ⟨rfl, hv, hd⟩ (ih hvars hds)

theorem sim_lambda_fields (hrun : C.Runners run run') (hctx : C.Contexts p w.next ctx ctx') (id : Nat)
    {fs : List (String × Option Expr)} {whole : Option String} {body : Expr} (ellipsis : Bool)
    (hnew : C.R.new ∉ fs.map (·.1) ++ whole.toList) (hfs : ∀ e ∈ fs.filterMap (·.2), e.Everywhere C.Suits)
    (hbody : body.Everywhere C.Suits) :
    C.Sim w (expression C.env run ctx (.lambda (.fields fs ellipsis whole) body))
      (expression C.env' run' ctx' (C.R.formOf p.stage id (.lambda (.fields fs ellipsis whole) body)))
      fun w₁ => C.Judgments p w₁.next := by
  have hnames : ∀ f : Expr → Expr, (fs.map fun x => (x.1, x.2.map f)).map (·.1) = fs.map (·.1) := by
    intro f
    rw [List.map_map]
    rfl
  let inner : Place := C.within p (fs.map (·.1) ++ whole.toList)
  rw [Renaming.formOf, Renaming.fields_eq]
  simp only [expression, lambda, hnames]
  refine Sim.bind (P := fun w₁ vs vs' => List.Forall₂ (fun _ _ => True) fs vs ∧
      List.Forall₂ (fun v v' => (C.kin w₁.next).ty (.var v) (.var v')) vs vs')
    (sim_mapM_of _ (fun _ _ _ _ hw hv => kin_ty_mono hw.1 hv) fun _ _ _ _ =>
      sim_fresh.imp fun _ _ _ _ hv => ⟨trivial, hv⟩) ?_
  intro w₁ vars vars' hw₁ hvars
  obtain ⟨hnumber, hvars⟩ := hvars
  have hinner : C.Contexts inner w₁.next ((ctx.fix vars).enter (.params (fs.map (·.1) ++ whole.toList)))
      ((ctx'.fix vars').enter (.params (fs.map (·.1) ++ whole.toList))) :=
    ((hctx.later hw₁.1).fix hvars).enter (.params _) hnew
  refine Sim.bind (P := fun w₂ ds ds' => List.Forall₂ (fun _ _ => True) fs ds ∧
      List.Forall₂ (Option.Rel (C.Judgments inner w₂.next)) ds ds')
    (sim_mapM_of _ (fun _ _ _ _ hw hd => rel_option_imp hd fun _ _ hJ => hJ.mono hw.1) ?_) ?_
  · intro x hx w₂ hw₂
    refine (sim_expr? hrun (hinner.later hw₂.1) fun e he => hfs e ?_).imp fun _ _ _ _ hd => ⟨trivial, hd⟩
    exact List.mem_filterMap.2 ⟨_, hx, he⟩
  · intro w₂ ds ds' hw₂ hds
    obtain ⟨hlength, hds⟩ := hds
    refine (hrun.expr (hinner.later hw₂.1) hbody).bind fun w₃ J J' hw₃ hJ => sim_pure ?_
    have hvars₃ := hvars.imp fun _ _ hv => kin_ty_mono (hw₂.trans hw₃).1 hv
    have hds₃ : List.Forall₂ (Option.Rel (C.Judgments inner w₃.next)) ds ds' :=
      hds.imp fun _ _ hd => rel_option_imp hd fun _ _ hJ => hJ.mono hw₃.1
    have hfields :
        List.Forall₂ (Judgment.PatternField.Related (C.kin w₃.next) (C.Names inner)) (patternFields fs vars ds) _ :=
      rel_patternFields (C.R.expr inner.stage) fs hvars₃ hds₃
    refine Judgment.Related.patternLambda hJ hfields ?_ ellipsis
    rw [names_patternFields hnumber.length_eq.symm hlength.length_eq.symm]
    exact binds_within hnew p

theorem stepName?_expr (st : Renaming.Stage) (e : Expr) : stepName? (C.R.expr st e) = stepName? e := by
  obtain ⟨id, span, f⟩ := e
  cases f with
  | lambda q b =>
    cases q with
    | name x =>
      show stepName? (.mk id span (if _ then _ else _)) = none
      split <;> rfl
    | fields fs o whole => rfl
  | set isRec g => cases isRec <;> rfl
  | _ => rfl

theorem sim_selectStep (hrun : C.Runners run run') (hctx : C.Contexts p w.next ctx ctx') {o o' : Origin}
    {current current' : Option Ty} (h : Option.Rel (C.Taken w.next o o') current current') {e : Expr}
    (he : e.Everywhere C.Suits) :
    C.Sim w (selectStep run ctx current e) (selectStep run' ctx' current' (C.R.expr p.stage e)) fun w₁ r r' =>
      Option.Rel (C.Taken w₁.next o o') r.1 r'.1 ∧ List.Forall₂ (C.Judgments p w₁.next) r.2 r'.2 := by
  have hnone : ∀ {t : Option Ty} (name : String), (∀ fs b, t ≠ some (.record fs b)) →
      ∀ (run : Runner) (ctx : Context) (e : Expr), stepName? e = some name →
        selectStep run ctx t e = pure (none, []) := by
    intro t name ht run ctx e hname
    unfold selectStep
    rw [hname]
    split
    · exact absurd rfl (ht _ _)
    · rfl
    · next hnone => cases hnone
  cases hname : stepName? e with
  | none =>
    unfold selectStep
    rw [stepName?_expr, hname]
    exact (hrun.expr hctx he).bind fun _ _ _ _ hJ => sim_pure ⟨.none, .cons hJ .nil⟩
  | some name =>
    have hname' : stepName? (C.R.expr p.stage e) = some name := (stepName?_expr p.stage e).trans hname
    cases h with
    | none =>
      rw [hnone name (by simp) run ctx e hname, hnone name (by simp) run' ctx' _ hname']
      exact sim_pure ⟨.none, .nil⟩
    | @some t t' ht =>
      by_cases hrecord : ∃ fs b, t = .record fs b
      · obtain ⟨fs, b, rfl⟩ := hrecord
        obtain ⟨fs', rfl, hfs⟩ := ht.record
        unfold selectStep
        rw [hname, hname']
        exact sim_pure ⟨rel_findKey hfs name, .nil⟩
      · have hother : ∀ fs b, t ≠ .record fs b := fun fs b heq => hrecord ⟨fs, b, heq⟩
        have hother' := ht.not_record hother
        rw [hnone name (fun fs b heq => hother fs b (Option.some.inj heq)) run ctx e hname,
          hnone name (fun fs b heq => hother' fs b (Option.some.inj heq)) run' ctx' _ hname']
        exact sim_pure ⟨.none, .nil⟩

theorem sim_selectPath (hrun : C.Runners run run') (hctx : C.Contexts p w.next ctx ctx') {o o' : Origin}
    {current current' : Option Ty} (h : Option.Rel (C.Taken w.next o o') current current') {path : List Expr}
    (hpath : ∀ e ∈ path, e.Everywhere C.Suits) :
    C.Sim w (selectPath run ctx current path)
      (selectPath run' ctx' current' (path.map (C.R.expr p.stage))) fun w₁ r r' =>
      Option.Rel (C.Taken w₁.next o o') r.1 r'.1 ∧ List.Forall₂ (C.Judgments p w₁.next) r.2 r'.2 := by
  induction path generalizing current current' w with
  | nil => exact sim_pure ⟨h, .nil⟩
  | cons e path ih =>
    refine (sim_selectStep hrun hctx h (hpath e List.mem_cons_self)).bind fun w₁ r r' hw₁ hr => ?_
    refine (ih (hctx.later hw₁.1) hr.1 fun e he => hpath e (List.mem_cons_of_mem _ he)).bind fun w₂ q q' hw₂ hq => ?_
    exact sim_pure ⟨hq.1, List.rel_append (judgments_later hr.2 hw₂) hq.2⟩

theorem sim_select (hrun : C.Runners run run') (hctx : C.Contexts p w.next ctx ctx') {subject : Expr} {path : List Expr}
    {d : Option Expr} (hsubject : subject.Everywhere C.Suits) (hpath : ∀ e ∈ path, e.Everywhere C.Suits)
    (hd : ∀ e ∈ d, e.Everywhere C.Suits) :
    C.Sim w (select run ctx subject path d)
      (select run' ctx' (C.R.expr p.stage subject) (path.map (C.R.expr p.stage)) (d.map (C.R.expr p.stage)))
      fun w₁ => C.Judgments p w₁.next := by
  refine (hrun.expr hctx hsubject).bind fun w₁ J J' hw₁ hJ => ?_
  refine (sim_recordOf hJ.ty).bind fun w₂ r r' hw₂ hr => ?_
  have hcurrent : Option.Rel (C.Taken w₂.next ((r.map (·.origin)).getD .here) ((r'.map (·.origin)).getD .here))
      (r.map fun r => .record r.fields false) (r'.map fun r => .record r.fields false) := by
    cases hr with
    | none => exact .none
    | some hr => exact .some hr
  have hctx₂ := hctx.later (hw₁.trans hw₂).1
  refine (sim_selectPath hrun hctx₂ hcurrent hpath).bind fun w₃ f f' hw₃ hf => ?_
  refine (sim_expr? hrun (hctx₂.later hw₃.1) hd).bind fun w₄ D D' hw₄ hD => ?_
  have hJ₄ := hJ.mono (hw₂.trans (hw₃.trans hw₄)).1
  have hparts : List.Forall₂ (C.Judgments p w₄.next) (J :: f.2 ++ D.toList) (J' :: f'.2 ++ D'.toList) := by
    refine List.rel_append (.cons hJ₄ (judgments_later hf.2 hw₄)) ?_
    cases hD with
    | none => exact .nil
    | some hd => exact .cons hd .nil
  have hdone : ∀ {w₅ : World} {K K' : Judgment}, w₄ ≤ w₅ → C.Judgments p w₅.next K K' →
      C.Sim w₅ (pure (.merged (J :: f.2 ++ D.toList ++ [K]) K.ty))
        (pure (.merged (J' :: f'.2 ++ D'.toList ++ [K']) K'.ty))
        fun w₆ => C.Judgments p w₆.next := by
    intro w₅ K K' hw₅ hK
    exact sim_pure (Judgment.related_merged (List.rel_append (judgments_later hparts hw₅) (.cons hK .nil)) hK.ty)
  obtain ⟨found, js⟩ := f
  obtain ⟨found', js'⟩ := f'
  obtain ⟨hfound, -⟩ := hf
  cases hfound with
  | some ht => exact (sim_instanceOf (ht.mono hw₄.1) p).bind fun _ _ _ hw₅ hK => hdone hw₅ hK
  | none =>
    cases hD with
    | none => exact (sim_unknown p).bind fun _ _ _ hw₅ hK => hdone hw₅ hK
    | some hd => exact hdone le_rfl (Judgment.related_ofTy hd.ty)

theorem sim_hasAttr (hrun : C.Runners run run') (hctx : C.Contexts p w.next ctx ctx') {subject : Expr}
    {path : List Expr} (hsubject : subject.Everywhere C.Suits) (hpath : ∀ e ∈ path, e.Everywhere C.Suits) :
    C.Sim w (hasAttr run ctx subject path) (hasAttr run' ctx' (C.R.expr p.stage subject) (path.map (C.R.expr p.stage)))
      fun w₁ => C.Judgments p w₁.next := by
  have hsteps : (path.map (C.R.expr p.stage)).filter (fun e => (stepName? e).isNone) =
      (path.filter fun e => (stepName? e).isNone).map (C.R.expr p.stage) := by
    rw [List.filter_map]
    congr 2
    funext e
    exact congrArg Option.isNone (stepName?_expr p.stage e)
  unfold hasAttr
  rw [hsteps]
  refine (hrun.expr hctx hsubject).bind fun w₁ J J' hw₁ hJ => ?_
  refine (sim_exprs hrun (hctx.later hw₁.1) fun e he =>
      hpath e (List.mem_of_mem_filter he)).bind fun w₂ js js' hw₂ hjs => ?_
  exact sim_pure (Judgment.related_merged (.cons (hJ.mono hw₂.1) hjs) ((C.kin w₂.next).prim .bool))

theorem sim_interpolation (hrun : C.Runners run run') (hctx : C.Contexts p w.next ctx ctx') {ps : List (Piece Expr)}
    (hps : ∀ e ∈ ps.filterMap Piece.interp?, e.Everywhere C.Suits) (q : Prim) :
    C.Sim w (interpolation run ctx ps (.prim q)) (interpolation run' ctx' (C.R.pieces p.stage ps) (.prim q))
      fun w₁ => C.Judgments p w₁.next := by
  unfold interpolation
  rw [Renaming.interps_pieces]
  exact (sim_exprs hrun hctx hps).bind fun w₁ _ _ _ hjs =>
    sim_pure (Judgment.related_merged hjs ((C.kin w₁.next).prim q))

end Forms

/-! ## The walk -/

section Walk

theorem sim_expression (hrun : C.Runners run run') (hctx : C.Contexts p w.next ctx ctx') {id : Nat} {span : Option Span}
    {f : Form Expr} (he : (Expr.mk id span f).Everywhere C.Suits) :
    C.Sim w (expression C.env run ctx f) (expression C.env' run' ctx' (C.R.formOf p.stage id f))
      fun w₁ => C.Judgments p w₁.next := by
  have hparts : ∀ q ∈ f.parts, q.Everywhere C.Suits := fun q hq => he.part hq
  have hfresh : C.R.new ∉ f.names := he.self.fresh
  have hexpr : ∀ q ∈ f.parts, ∀ {w₁ : World}, w ≤ w₁ →
      C.Sim w₁ (run ctx (.expr q)) (run' ctx' (.expr (C.R.expr p.stage q))) fun w₂ => C.Judgments p w₂.next :=
    fun q hq w₁ hw => hrun.expr (hctx.later hw.1) (hparts q hq)
  cases f with
  | missing => exact sim_unknown p
  | literal l =>
    have hl : (C.kin w.next).ty l.ty l.ty := by cases l <;> exact (C.kin w.next).prim _
    exact sim_pure (Judgment.related_ofTy hl)
  | ref x => exact sim_reference hrun hctx (he.self.refers x rfl)
  | apply fn arg =>
    refine (hexpr fn (by simp [Form.parts]) le_rfl).bind fun w₁ J J' hw₁ hJ => ?_
    refine (hexpr arg (by simp [Form.parts]) hw₁).bind fun w₂ K K' hw₂ hK => ?_
    refine sim_freshTy.bind fun w₃ t t' hw₃ ht => sim_pure ?_
    exact (hJ.mono (hw₂.trans hw₃).1).apply (hK.mono hw₃.1) ht
  | lambda q b =>
    have hbody := hparts b (by simp [Form.parts])
    cases q with
    | name x =>
      have hx : x ≠ C.R.new := fun hx => hfresh (List.mem_singleton.2 hx.symm)
      exact sim_lambda_name hrun hctx id hx hbody
    | fields fs o whole =>
      exact sim_lambda_fields hrun hctx id o hfresh (fun e he => hparts e (List.mem_append_left _ he)) hbody
  | letIn g b =>
    rw [Renaming.formOf]
    exact sim_letIn hrun hctx hfresh (Renaming.components_group hfresh (he.self.components g rfl) p.stage)
      (fun q hq => hparts q (List.mem_append_left _ hq)) (hparts b (by simp [Form.parts]))
  | set isRec g =>
    cases isRec with
    | true =>
      rw [Renaming.formOf]
      exact sim_recSet hrun hctx hfresh (Renaming.components_group hfresh (he.self.components g rfl) p.stage) hparts
    | false =>
      rw [Renaming.formOf]
      exact sim_plainSet hrun hctx hparts
  | list es =>
    rw [Renaming.formOf, Renaming.exprs_eq]
    exact (sim_exprs hrun hctx hparts).bind fun _ _ _ _ hjs => sim_pure (Judgment.related_list hjs)
  | unary op e =>
    refine (hexpr e (by simp [Form.parts]) le_rfl).bind fun w₁ J J' hw₁ hJ => ?_
    exact sim_freshTy.bind fun w₂ t t' hw₂ ht => sim_pure ((hJ.mono hw₂.1).unary op ht)
  | binary op l r =>
    refine (hexpr l (by simp [Form.parts]) le_rfl).bind fun w₁ J J' hw₁ hJ => ?_
    refine (hexpr r (by simp [Form.parts]) hw₁).bind fun w₂ K K' hw₂ hK => ?_
    refine sim_freshTy.bind fun w₃ t t' hw₃ ht => sim_pure ?_
    exact (hJ.mono (hw₂.trans hw₃).1).binary (hK.mono hw₃.1) op ht
  | select e path d =>
    rw [Renaming.formOf, Renaming.exprs_eq, Renaming.expr?_eq]
    refine sim_select hrun hctx (hparts e (by simp [Form.parts])) (fun q hq => hparts q (by simp [Form.parts, hq])) ?_
    intro q hq
    rw [Option.mem_def] at hq
    exact hparts q (by simp [Form.parts, hq])
  | hasAttr e path =>
    rw [Renaming.formOf, Renaming.exprs_eq]
    exact sim_hasAttr hrun hctx (hparts e (by simp [Form.parts])) fun q hq => hparts q (by simp [Form.parts, hq])
  | ifElse c y n =>
    refine (hexpr c (by simp [Form.parts]) le_rfl).bind fun w₁ J J' hw₁ hJ => ?_
    refine (hexpr y (by simp [Form.parts]) hw₁).bind fun w₂ Y Y' hw₂ hY => ?_
    refine (hexpr n (by simp [Form.parts]) (hw₁.trans hw₂)).bind fun w₃ N N' hw₃ hN => sim_pure ?_
    exact (hJ.mono (hw₂.trans hw₃).1).ifElse (hY.mono hw₃.1) hN
  | withIn sc b =>
    refine (hexpr sc (by simp [Form.parts]) le_rfl).bind fun w₁ J J' hw₁ hJ => ?_
    refine (sim_recordOf hJ.ty).bind fun w₂ r r' hw₂ hr => ?_
    -- a `with` binds no name, so the place stays
    have hinner : C.Contexts p w₂.next (ctx.enter (.withIn r)) (ctx'.enter (.withIn r')) :=
      (hctx.later (hw₁.trans hw₂).1).enter (.withIn hr) (by rintro ⟨⟩)
    refine (hrun.expr hinner (hparts b (by simp [Form.parts]))).bind fun w₃ K K' hw₃ hK => sim_pure ?_
    exact Judgment.related_merged (.cons (hJ.mono (hw₂.trans hw₃).1) (.cons hK .nil)) hK.ty
  | assertIn c b =>
    refine (hexpr c (by simp [Form.parts]) le_rfl).bind fun w₁ J J' hw₁ hJ => ?_
    refine (hexpr b (by simp [Form.parts]) hw₁).bind fun w₂ K K' hw₂ hK => sim_pure ?_
    exact (hJ.mono hw₂.1).assertIn hK
  | stringParts ps | pathParts ps =>
    rw [Renaming.formOf]
    exact sim_interpolation hrun hctx hparts _

theorem sim_finishSlot (hrun : C.Runners run run') (hctx : C.Forcing ctx ctx') {i : Nat} {q q' : Pending}
    (hp : w.book i = some p) (hq : C.Waiting p w.next q q') :
    C.Sim w (finishSlot run ctx i q) (finishSlot run' ctx' (C.base.index i) q')
      fun w₁ J J' => ∃ p, w₁.book i = some p ∧ C.Judgments p w₁.next J J' := by
  -- the slot keeps its place while it is computed
  have hfinish : ∀ {w₁ : World} {J J' : Judgment}, w ≤ w₁ → C.Judgments p w₁.next J J' →
      C.Sim w₁ (do changeSlots (·.finish i J); return J) (do changeSlots (·.finish (C.base.index i) J'); return J')
        fun w₂ J J' => ∃ p, w₂.book i = some p ∧ C.Judgments p w₂.next J J' := by
    intro w₁ J J' hw₁ hJ
    have hp₁ := hw₁.2 i p hp
    exact (sim_finish hp₁ hJ).bind fun w₂ _ _ hw₂ _ => sim_pure ⟨p, hw₂.2 i p hp₁, hJ.mono hw₂.1⟩
  have hforcing : ∀ {scopes scopes' : List Scope} {M M' : VarSet},
      C.Forcing ⟨scopes, M, i :: ctx.forcing⟩ ⟨scopes', M', C.base.index i :: ctx'.forcing⟩ :=
    congrArg (C.base.index i :: ·) hctx
  cases hq with
  | expr around mono suits =>
    exact (hrun.expr ⟨around, mono, hforcing⟩ suits).bind fun _ _ _ hw hJ => hfinish hw hJ
  | field scopes scopes' M M' source name =>
    refine (hrun.force source hforcing).bind fun w₁ J J' hw₁ hJ => ?_
    obtain ⟨r, -, hJ⟩ := hJ
    exact (sim_fieldOf hJ.ty name p).bind fun _ _ _ hw₂ hK => hfinish (hw₁.trans hw₂) hK

theorem sim_force (hrun : C.Runners run run') (hctx : C.Forcing ctx ctx') (i : Nat) :
    C.Sim w (force run ctx i) (force run' ctx' (C.base.index i))
      fun w₁ J J' => ∃ p, w₁.book i = some p ∧ C.Judgments p w₁.next J J' := by
  intro s s' hs
  have hslot := hs.slots i
  rw [run_force, run_force]
  generalize hc : s.slot? i = c, hc' : s'.slot? (C.base.index i) = c' at hslot
  cases hslot with
  | none empty | reserved empty => exact .error fun _ => rfl
  | deferred placed waiting =>
    -- a slot that waits is first marked, which leaves it at its place
    have hput := hs.put (State.lt_size hc) le_rfl rfl (fun _ _ => rfl) (.forcing placed)
    exact sim_finishSlot hrun hctx placed waiting _ _ hput
  | @forcing p placed =>
    have hloop : C.Sim w (do note (.refersToItself i); record fun _ => .looped ctx i; unknown)
        (do note (.refersToItself (C.base.index i)); record fun _ => .looped ctx' (C.base.index i); unknown)
        fun w₁ J J' => ∃ p, w₁.book i = some p ∧ C.Judgments p w₁.next J J' := by
      refine (sim_note _ _).bind fun w₁ _ _ hw₁ _ => (sim_record _ _).bind fun w₂ _ _ hw₂ _ => ?_
      exact (sim_unknown p).imp fun w₃ _ _ hw₃ hJ => ⟨p, (hw₁.trans (hw₂.trans hw₃)).2 i p placed, hJ⟩
    exact hloop s s' hs
  | forced placed judged => exact .ok w le_rfl hs ⟨_, placed, judged⟩

/-- Walks go side by side to any depth: a walk that may go at least as deep as another does what the other does, and
where both go equally deep they also fail alike. -/
theorem runners_runTo (C : Comparison) {n n' : Nat} (hn : n ≤ n') (hstrict : C.strict → n' = n) :
    C.Runners (runTo C.env n) (runTo C.env' n') := by
  induction n generalizing n' with
  | zero =>
    have hdeep : ∀ {w : World} {Q : World → Judgment → Judgment → Prop} (ctx ctx' : Context) (task task' : Task),
        C.Sim w (runTo C.env 0 ctx task) (runTo C.env' n' ctx' task') Q := by
      intro w Q ctx ctx' task task' s s' _
      refine .error fun h => ?_
      rw [hstrict h]
      rfl
    exact ⟨fun _ _ => hdeep _ _ _ _, fun _ _ => hdeep _ _ _ _⟩
  | succ n ih =>
    obtain ⟨n', rfl⟩ := Nat.exists_eq_add_of_le' (Nat.one_le_of_lt hn)
    have hrun := ih (Nat.le_of_succ_le_succ hn) fun h => Nat.succ.inj (hstrict h)
    refine ⟨fun {p w ctx ctx' e} hctx he => ?_, fun i hctx => sim_force hrun hctx i⟩
    obtain ⟨id, span, f⟩ := e
    refine (sim_expression hrun hctx he).bind fun w₁ J J' _ hJ => ?_
    exact (sim_record _ _).bind fun w₂ _ _ hw₂ _ => sim_pure (hJ.mono hw₂.1)

end Walk

/-! ## From the beginning -/

/-- What is left of a comparison at the end of the walks. -/
structure Ends (C : Comparison) (J : Judgment) (t : State) (J' : Judgment) (t' : State) : Prop where
  eq : J' = (J.rename C.base.var).relabelSchemes C.labels
  issued : J.Issued C.env t.next
  refers : ∀ a ∈ J.assumptions.entries, C.Refers a.1
  next : t'.next = C.base.var t.next
  kept : ∀ i, i < C.base.state.size → t'.slot? i = C.base.state.slot? i

/-- Two walks over an expression come to ends that go together. -/
theorem outcomes_runTo (C : Comparison) {e : Expr} (he : e.Everywhere C.Suits) {n n' : Nat} (hn : n ≤ n')
    (hstrict : C.strict → n' = n) :
    (∃ stuck, (runTo C.env n {} (.expr e)).run {} = .error stuck ∧ (C.strict →
      (runTo C.env' n' ⟨C.base.scopes, ∅, C.base.forcing⟩ (.expr (C.R.expr .outside e))).run C.base.state =
        .error (C.base.stuck stuck))) ∨
    ∃ J t J' t', Runs (runTo C.env n {} (.expr e)) {} J t ∧
      Runs (runTo C.env' n' ⟨C.base.scopes, ∅, C.base.forcing⟩ (.expr (C.R.expr .outside e))) C.base.state J' t' ∧
      C.Ends J t J' t' := by
  have hsim := (runners_runTo C hn hstrict).expr C.contexts_start he {} C.base.state C.states_start
  change C.Outcomes _ _ _ ((runTo C.env' n' _ (.expr (C.R.expr .outside e))).run C.base.state) at hsim
  generalize hr : (runTo C.env n {} (.expr e)).run {} = r,
    hr' : (runTo C.env' n' ⟨C.base.scopes, ∅, C.base.forcing⟩ (.expr (C.R.expr .outside e))).run C.base.state =
      r' at hsim
  cases hsim with
  | error same => exact .inl ⟨_, rfl, same⟩
  | @ok J J' t t' w later states post =>
    refine .inr ⟨J, t, J', t', hr, hr', post.eq, ?_, post.refers, ?_, states.kept⟩
    · rw [states.next]
      exact post.issued
    · rw [states.next]
      exact states.next'

/-! ## The same expression -/

/-- A renaming that changes nothing asks for no more than that the expression's names are free. -/
theorem suits_of_idle {e : Expr} (hidle : ∀ q ∈ e.all, C.R.old ∉ q.form.names ∧ C.R.new ∉ q.form.names)
    (hfree : ∀ q ∈ e.all, ∀ x, q.form = .ref x → lexicalIn C.base.scopes x = none ∧
      C.env'.lookup x = (C.env.lookup x).map (List.map (·.relabel C.labels))) : e.Everywhere C.Suits := by
  intro q hq
  refine ⟨(hidle q hq).2, fun x hx => ⟨?_, (hfree q hq x hx).1, (hfree q hq x hx).2⟩, fun g hg hold => ?_⟩
  · rintro rfl
    exact (hidle q hq).2 (by rw [hx]; exact List.mem_singleton_self _)
  · exact absurd (Form.names_of_group hg ▸ hold) (hidle q hq).1

end Comparison

section Same
variable {env env' : Env} {e : Expr} {J : Judgment} {t : State} {n n' : Nat}

/-- What a walk makes of an expression from the start, it makes of it from a base that binds none of its names, shifted,
and in an environment with other labels, relabelled. -/
theorem Base.exists_runs (B : Base) (ρ : Nat → Nat)
    (he : ∀ q ∈ e.all, ∀ x, q.form = .ref x → lexicalIn B.scopes x = none ∧
      env'.lookup x = (env.lookup x).map (List.map (·.relabel ρ)))
    (hn : n ≤ n') (h : Runs (runTo env n {} (.expr e)) {} J t) :
    ∃ t', Runs (runTo env' n' ⟨B.scopes, ∅, B.forcing⟩ (.expr e)) B.state ((J.rename B.var).relabelSchemes ρ) t' ∧
      t'.next = B.var t.next ∧ (∀ i, i < B.state.size → t'.slot? i = B.state.slot? i) ∧ J.Issued env t.next := by
  obtain ⟨R, hsame, hidle⟩ := Renaming.exists_idle e
  let C : Comparison := ⟨env, env', ρ, R, B, False⟩
  have hends := C.outcomes_runTo (Comparison.suits_of_idle (C := C) hidle he) hn False.elim
  rcases hends with ⟨stuck, hstuck, -⟩ | ⟨J₁, t₁, J', t', hrun, hrun', hends⟩
  · cases h.symm.trans hstuck
  · obtain ⟨rfl, rfl⟩ := Prod.mk.inj (Except.ok.inj (hrun.symm.trans h))
    obtain rfl := hends.eq
    rw [hsame] at hrun'
    exact ⟨t', hrun', hends.next, hends.kept, hends.issued⟩

theorem Constraint.Issued.rename_eq_self {ρ : Nat → Nat} (hρ : ∀ v, ρ v = v) {c : Constraint} {k : Nat}
    (h : c.Issued env k) : c.rename ρ = c := by
  have hty : ∀ {t : Ty}, t.WellFormed → t.rename ρ = t := fun ht => Ty.rename_eq_self ht fun v _ => hρ v
  cases h with
  | eq left right => rw [Constraint.rename, hty left.1.wellFormed, hty right.1.wellFormed]
  | operator applied signature => rw [Constraint.rename, hty applied.1.wellFormed, hty signature.wellFormed]
  | explicit ty => rw [Constraint.rename, hty ty.1.wellFormed]
  | @implicit _ _ M ty mono bound =>
    have hM : M.rename ρ = M := VarSet.ext fun v => by simp [hρ]
    rw [Constraint.rename, hty ty.1.wellFormed, hty bound.1.wellFormed, hM]

theorem Judgment.Issued.rename_eq_self {ρ : Nat → Nat} (hρ : ∀ v, ρ v = v) {k : Nat} (h : J.Issued env k) :
    J.rename ρ = J := by
  have hty : ∀ {t : Ty}, t.Issued k → t.rename ρ = t := fun ht => Ty.rename_eq_self ht.1.wellFormed fun v _ => hρ v
  have hassumptions : J.assumptions.entries.map (fun a => (a.1, a.2.rename ρ)) = J.assumptions.entries := by
    rw [List.map_congr_left fun a ha => by rw [hty (h.assumptions a ha)], List.map_id']
  have hconstraints : J.constraints.map (·.rename ρ) = J.constraints := by
    rw [List.map_congr_left fun c hc => (h.constraints c hc).rename_eq_self hρ, List.map_id']
  rw [Judgment.rename, Assumptions.rename, hassumptions, hconstraints, hty h.ty]

/-- A walk that may go deeper, in an environment with other labels, judges an expression alike. -/
theorem Expr.judge_relabel (ρ : Nat → Nat) (h : e.judge env = .ok (J, t)) (hn : depthOf e ≤ n) :
    ∃ t', Runs (runTo (env.relabel ρ) n {} (.expr e)) {} (J.relabelSchemes ρ) t' ∧ t'.next = t.next ∧
      J.Issued env t.next := by
  have hnames : ∀ q ∈ e.all, ∀ x, q.form = .ref x → lexicalIn Base.start.scopes x = none ∧
      (env.relabel ρ).lookup x = (env.lookup x).map (List.map (·.relabel ρ)) :=
    fun _ _ x _ => ⟨rfl, env.lookup_relabel ρ x⟩
  obtain ⟨t', hrun, hnext, -, hissued⟩ := Base.start.exists_runs ρ hnames hn h
  rw [hissued.rename_eq_self (ρ := Base.start.var) fun _ => rfl] at hrun
  exact ⟨t', hrun, hnext, hissued⟩

/-- The types in the judgment of an expression are issued by its walk. -/
theorem Expr.judge_issued (h : e.judge env = .ok (J, t)) : J.Issued env t.next := by
  obtain ⟨-, -, -, hissued⟩ := Expr.judge_relabel (fun v => v) h le_rfl
  exact hissued

end Same

end NixTyping
