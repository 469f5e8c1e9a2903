import Mathlib
import NixTyping.Proofs.TotalWalk
/-!
# Every expression has a judgment

Each form of expression is judged by its rule when its parts can be (`judges_expression`),
and a slot is computed when what waits in it can be (`walks_force`). So a runner that
carries out what fits one depth carries out what fits the next (`carries_runTo`), and
the depth that an expression is given is enough for it.

`judge_total` is what proofs about judgments start from: the walk succeeds, it judges
everything under the expression once, and its history tells of a judgment by the rules.
-/

namespace NixTyping

namespace Judging

section Parts
variable {env : Env} {root : Expr} {depth : Nat} {run : Runner} {ctx : Context} {s : State} {id : Nat}
  {span : Option Span}

/-- The form is judged by its rule, and each of its parts with it. -/
def Judges (env : Env) (root : Expr) (ctx : Context) (f : Form Expr) (s : State) (m : Judging Judgment) : Prop :=
  Walks env root ctx.forcing s m (f.judged.map Expr.worth).sum fun s' J => Follows env (Told s'.history) ctx.scopes f J

theorem walks_exprs (hrun : Carries env root depth run) (ctx : Context) (hs : Holds env root ctx.forcing s)
    {es : List Expr} (h : ∀ p ∈ es, Visit env root depth ctx p s) :
    Walks env root ctx.forcing s (es.mapM fun e => run ctx (.expr e)) (es.map Expr.worth).sum fun s' js =>
      List.Forall₂ (Told s'.history ctx.scopes) es js :=
  walks_mapM (fun _ _ _ _ hJ hlater => hJ.later hlater) Expr.worth hs fun p hp _ h₁ hlater =>
    hrun.expr ((h p hp).later h₁ hlater)

/-! ## Groups -/

theorem walks_computed (hrun : Carries env root depth run) {d : Deferral} {M : List String} {R : Nat}
    (h : InGroup env root depth d M R s) (hparts : ∀ p ∈ d.group.computed, p ∈ root.all ∧ ∀ x ∈ p.mentioned, x ∈ M)
    (hR : (d.group.computed.map Expr.worth).sum.card ≤ R) :
    Walks env root d.ctx.forcing s (dynamics run (d.ctx.enter d.scope) d.group) (d.group.computed.map Expr.worth).sum
      fun s' js => List.Forall₂ (Told s'.history (d.scope :: d.ctx.scopes)) d.group.computed js :=
  walks_exprs hrun (d.ctx.enter d.scope) h.holds fun p hp =>
    h.visitComputed (hparts p hp).1 (hparts p hp).2 ((Expr.card_worth_of_mem hp).trans hR)

theorem judges_letIn (hrun : Carries env root depth run) {g : Bindings Expr} (hg : g.Sourced) {body : Expr}
    (h : Visit env root (depth + 1) ctx (.mk id span (.letIn g body)) s) :
    Judges env root ctx (.letIn g body) s (letIn run ctx g body) := by
  let d : Deferral := ⟨ctx, g, s.size⟩
  have hworth := d.worth_parts
  have hsum : ((Form.letIn g body).judged.map Expr.worth).sum = (d.pendings.map Pending.worth).sum +
      ((g.computed.map Expr.worth).sum + body.worth) := by
    show ((g.parts ++ [body]).map Expr.worth).sum = _
    rw [List.map_append, List.sum_append, hworth, add_assoc, List.map_singleton, List.sum_singleton]
  have hin : InGroup env root depth d (Expr.mk id span (.letIn g body)).mentioned
      ((g.computed.map Expr.worth).sum.card + body.worth.card) (s.deferred d) := by
    refine h.inGroup rfl ?_
    have hcard : (Expr.mk id span (.letIn g body)).worth.card =
        ((Form.letIn g body).judged.map Expr.worth).sum.card + 1 := Expr.card_worth _
    rw [hcard, hsum, Multiset.card_add, Multiset.card_add]
  have hpart : ∀ p ∈ (Form.letIn g body).judged, p ∈ root.all ∧
      ∀ x ∈ p.mentioned, x ∈ (Expr.mk id span (.letIn g body)).mentioned :=
    fun p hp => ⟨(h.part hp).mem, fun x hx => Expr.mem_mentioned_of_part (Form.judged_subset hp) hx⟩
  have hcomputed : ∀ p ∈ g.computed, p ∈ (Form.letIn g body).judged := fun p hp =>
    List.mem_append_left _ (List.mem_append_right _ hp)
  have hbody := hpart body (List.mem_append_right _ List.mem_cons_self)
  -- the computed names and the body come first; only then is forced what of the group still waits
  refine Walks.account (walks_deferGroup hg ?_) hsum.symm
  refine (walks_computed hrun hin (fun p hp => hpart p (hcomputed p hp)) (Nat.le_add_right _ _)).bind
    fun extra s₁ h₁ hlater₁ hextra => ?_
  refine (hrun.expr ((hin.later h₁ hlater₁).visitBody hbody.1 hbody.2 (Nat.le_add_left _ _))).last
    fun J s₂ h₂ hlater₂ hJ => ?_
  refine (walks_forceGroup hrun (hin.later h₂ (hlater₁.trans hlater₂))).step ?_
  rintro ⟨bound, js⟩ s₃ h₃ hlater₃ ⟨hdone, hbound, hjs⟩
  obtain rfl : bound = boundTypes g js := hbound
  refine walks_pure h₃ ⟨hdone, .letIn (d := d) rfl hjs ?_ (hJ.later hlater₃)⟩
  exact hextra.imp fun _ _ he => he.later (hlater₂.trans hlater₃)

theorem judges_recSet (hrun : Carries env root depth run) {g : Bindings Expr} (hg : g.Sourced)
    (h : Visit env root (depth + 1) ctx (.mk id span (.set true g)) s) :
    Judges env root ctx (.set true g) s (recSet run ctx g) := by
  let d : Deferral := ⟨ctx, g, s.size⟩
  have hworth := d.worth_parts
  have hin : InGroup env root depth d (Expr.mk id span (.set true g)).mentioned (g.computed.map Expr.worth).sum.card
      (s.deferred d) := by
    refine h.inGroup rfl ?_
    have hcard : (Expr.mk id span (.set true g)).worth.card = (g.parts.map Expr.worth).sum.card + 1 := Expr.card_worth _
    rw [hcard, hworth, Multiset.card_add]
  have hpart : ∀ p ∈ g.computed, p ∈ root.all ∧ ∀ x ∈ p.mentioned, x ∈ (Expr.mk id span (.set true g)).mentioned :=
    fun p hp => ⟨(h.part (List.mem_append_right _ hp)).mem,
      fun x hx => Expr.mem_mentioned_of_part (List.mem_append_right _ hp) hx⟩
  refine Walks.account (walks_deferGroup hg ?_) hworth.symm
  refine (walks_computed hrun hin hpart le_rfl).last fun extra s₁ h₁ hlater₁ hextra => ?_
  refine (walks_forceGroup hrun (hin.later h₁ hlater₁)).step ?_
  rintro ⟨bound, js⟩ s₂ h₂ hlater₂ ⟨hdone, hbound, hjs⟩
  obtain rfl : bound = boundTypes g js := hbound
  exact walks_pure h₂ ⟨hdone, .recSet (d := d) rfl hjs (hextra.imp fun _ _ he => he.later hlater₂)⟩

/-- A field of a set: its own expression, or taken from a source. -/
theorem walks_field (hrun : Carries env root depth run) {g : Bindings Expr}
    (hpart : ∀ p ∈ g.parts, Visit env root depth ctx p s) (h : Holds env root ctx.forcing s) {js : List Judgment}
    (hjs : List.Forall₂ (Told s.history ctx.scopes) g.sources js) {f : String × Binding Expr} (hf : f ∈ g.statics) :
    Walks env root ctx.forcing s
      (do
        let j ← match f.2 with
          | .expr e | .inherit e => run ctx (.expr e)
          | .inheritFrom i =>
            match js[i]? with
            | some source => fieldOf source.ty f.1
            | none => unknown
        return (f.1, j))
      (f.2.expr?.elim 0 Expr.worth) fun s' r => FieldJudged env (Told s'.history) ctx.scopes f r := by
  obtain ⟨name, binding⟩ := f
  cases binding with
  | expr e | «inherit» e =>
    have hmem : e ∈ g.parts := List.mem_append_left _ (List.mem_append_left _ (List.mem_filterMap.2 ⟨_, hf, rfl⟩))
    exact (hrun.expr (hpart e hmem)).last fun J s₁ h₁ _ hJ => walks_pure h₁ ⟨rfl, hJ⟩
  | inheritFrom i =>
    simp only
    cases hsource : js[i]? with
    | none => exact (walks_unknown_use h).step fun J s₁ h₁ _ hJ => walks_pure h₁ ⟨rfl, hJ⟩
    | some source =>
      obtain ⟨e, -, htold⟩ := exists_of_forall₂ hjs (List.mem_of_getElem? hsource)
      exact (walks_fieldOf h (fun henv => (h.viable henv htold).ty) name).step fun J s₁ h₁ _ hJ =>
        walks_pure h₁ ⟨rfl, hJ⟩

theorem judges_plainSet (hrun : Carries env root depth run) {g : Bindings Expr}
    (h : Visit env root (depth + 1) ctx (.mk id span (.set false g)) s) :
    Judges env root ctx (.set false g) s (plainSet run ctx g) := by
  have hpart : ∀ p ∈ g.parts, Visit env root depth ctx p s := fun p hp => h.part hp
  have hsum : ((Form.set false g).judged.map Expr.worth).sum = (g.sources.map Expr.worth).sum +
      ((g.statics.map fun b => b.2.expr?.elim 0 Expr.worth).sum + (g.computed.map Expr.worth).sum) := by
    show (g.parts.map Expr.worth).sum = _
    rw [sum_filterMap, Bindings.parts, List.map_append, List.map_append, List.sum_append, List.sum_append]
    exact (congrArg (· + _) (add_comm _ _)).trans (add_assoc _ _ _)
  refine Walks.account ?_ hsum.symm
  refine (walks_exprs hrun ctx h.holds fun p hp =>
    hpart p (List.mem_append_left _ (List.mem_append_right _ hp))).bind fun sources s₁ h₁ hlater₁ hsources => ?_
  refine Walks.bind (Q := fun s₂ fields => List.Forall₂ (FieldJudged env (Told s₂.history) ctx.scopes) g.statics fields)
    (walks_mapM (fun b f _ _ hf hlater => hf.mono fun e _ he => he.later hlater) _ h₁ fun f hf s₂ h₂ hlater₂ => ?_)
    fun fields s₂ h₂ hlater₂ hfields => ?_
  · exact walks_field hrun (fun p hp => (hpart p hp).later h₂ (hlater₁.trans hlater₂)) h₂
      (hsources.imp fun _ _ he => he.later hlater₂) hf
  · refine (walks_exprs hrun ctx h₂ fun p hp =>
      (hpart p (List.mem_append_right _ hp)).later h₂ (hlater₁.trans hlater₂)).last fun extra s₃ h₃ hlater₃ hextra => ?_
    refine walks_pure h₃ (.plainSet ?_ ?_ hextra)
    · exact hsources.imp fun _ _ he => he.later (hlater₂.trans hlater₃)
    · exact hfields.imp fun _ _ hf => hf.mono fun e _ he => he.later hlater₃

/-! ## Functions and attributes -/

theorem judges_lambda (hrun : Carries env root depth run) {x : String} {body : Expr}
    (h : Visit env root (depth + 1) ctx (.mk id span (.lambda (.name x) body)) s) :
    Judges env root ctx (.lambda (.name x) body) s (lambda run ctx body (.name x)) := by
  have hbody : body ∈ (Form.lambda (.name x) body).judged := List.mem_append_right _ List.mem_cons_self
  refine (walks_fresh h.holds).step fun v s₁ h₁ hlater₁ _ => ?_
  refine ((hrun.expr (((h.part hbody).later h₁ hlater₁).enterParams [v] [x])).last fun J s₂ h₂ _ hJ =>
    walks_pure h₂ (.lambda v hJ)).account ?_
  simp [Form.judged, Form.parts, Param.defaults]

theorem judges_pattern (hrun : Carries env root depth run) {fs : List (String × Option Expr)} {ellipsis : Bool}
    {whole : Option String} {body : Expr}
    (h : Visit env root (depth + 1) ctx (.mk id span (.lambda (.fields fs ellipsis whole) body)) s) :
    Judges env root ctx (.lambda (.fields fs ellipsis whole) body) s
      (lambda run ctx body (.fields fs ellipsis whole)) := by
  let f : Form Expr := .lambda (.fields fs ellipsis whole) body
  have hpart : ∀ p ∈ f.judged, ∀ vars : List Nat,
      Visit env root depth ((ctx.fix vars).enter (.params (fs.map (·.1) ++ whole.toList))) p s :=
    fun p hp vars => (h.part hp).enterParams vars _
  have hsum : (f.judged.map Expr.worth).sum = (fs.map fun f => f.2.elim 0 Expr.worth).sum + body.worth := by
    show ((fs.filterMap (·.2) ++ [body]).map Expr.worth).sum = _
    rw [sum_filterMap, List.map_append, List.sum_append, List.map_singleton, List.sum_singleton]
  refine Walks.account ?_ hsum.symm
  have hvars : Walks env root ctx.forcing s (fs.mapM fun _ => fresh) 0 fun _ vars => vars.length = fs.length := by
    refine ((walks_mapM (Q := fun _ _ _ => True) (fun _ _ _ _ _ _ => trivial) (fun _ => 0) h.holds
      fun _ _ s' hs' _ => walks_fresh hs').imp fun vars s' _ _ hvars => hvars.length_eq.symm).account (by simp)
  refine hvars.step fun vars s₁ h₁ hlater₁ hvars => ?_
  let inner : Context := (ctx.fix vars).enter (.params (fs.map (·.1) ++ whole.toList))
  have hdefaults : Walks env root inner.forcing s₁ (fs.mapM fun f => f.2.mapM fun e => run inner (.expr e))
      (fs.map fun f => f.2.elim 0 Expr.worth).sum fun s₂ ds =>
        List.Forall₂ (DefaultJudged (Told s₂.history) inner.scopes) fs ds := by
    refine walks_mapM (fun f d _ _ hd hlater => hd.mono fun e _ J he => he.later hlater) _ h₁
      fun f hf s₂ h₂ hlater₂ => ?_
    obtain ⟨name, dflt⟩ := f
    cases dflt with
    | none => exact walks_pure h₂ .none
    | some e =>
      have he : e ∈ fs.filterMap (·.2) := List.mem_filterMap.2 ⟨_, hf, rfl⟩
      have hvisit := (hpart e (List.mem_append_left _ he) vars).later h₂ (hlater₁.trans hlater₂)
      exact (hrun.expr hvisit).last fun J s₃ h₃ _ hJ => walks_pure h₃ (.some hJ)
  refine hdefaults.bind fun ds s₂ h₂ hlater₂ hds => ?_
  have hbody := (hpart body (List.mem_append_right _ List.mem_cons_self) vars).later h₂ (hlater₁.trans hlater₂)
  refine (hrun.expr hbody).last fun J s₃ h₃ hlater₃ hJ => walks_pure h₃ (.pattern hvars ?_ hJ)
  exact hds.imp fun _ _ hd => hd.mono fun e _ J he => he.later hlater₃

/-- Going along a path judges the steps that are no known names. -/
theorem walks_selectPath (hrun : Carries env root depth run) {path : List Expr} (h : Holds env root ctx.forcing s)
    (hpath : ∀ p ∈ path, stepName? p = none → Visit env root depth ctx p s) {current : Option Ty}
    (hcurrent : env.Viable → ∀ t ∈ current, t.Viable) :
    Walks env root ctx.forcing s (selectPath run ctx current path)
      ((path.filter fun e => (stepName? e).isNone).map Expr.worth).sum fun s' r =>
        (env.Viable → ∀ t ∈ r.1, t.Viable) ∧
          List.Forall₂ (Told s'.history ctx.scopes) (path.filter fun e => (stepName? e).isNone) r.2 := by
  induction path generalizing s current with
  | nil => exact walks_pure h ⟨hcurrent, .nil⟩
  | cons e path ih =>
    have hstep : Walks env root ctx.forcing s (selectStep run ctx current e)
        (([e].filter fun e => (stepName? e).isNone).map Expr.worth).sum fun s' r =>
          (env.Viable → ∀ t ∈ r.1, t.Viable) ∧
            List.Forall₂ (Told s'.history ctx.scopes) ([e].filter fun e => (stepName? e).isNone) r.2 := by
      unfold selectStep
      split
      · next name fields o hname =>
        refine Walks.account (walks_pure h ⟨fun henv t ht => ?_, ?_⟩) (by simp [hname])
        · exact Ty.viable_record.1 (hcurrent henv _ rfl) _ (mem_of_findKey ht)
        · simp [hname]
      · next name _ hname _ =>
        exact Walks.account (walks_pure h ⟨by rintro - t ⟨⟩, by simp [hname]⟩) (by simp [hname])
      · next hname =>
        have hstep := hrun.expr (hpath e List.mem_cons_self hname)
        refine (hstep.last fun J s₁ h₁ _ hJ => walks_pure h₁ ?_).account (by simp [hname])
        exact ⟨by rintro - t ⟨⟩, by simpa [hname] using hJ⟩
    have hfilter := List.filter_append (p := fun e => (stepName? e).isNone) [e] path
    rw [List.singleton_append] at hfilter
    rw [hfilter, List.map_append, List.sum_append]
    refine hstep.bind fun r s₁ h₁ hlater₁ hr => ?_
    refine (ih h₁ (fun p hp hname => (hpath p (List.mem_cons_of_mem _ hp) hname).later h₁ hlater₁) hr.1).last
      fun r' s₂ h₂ hlater₂ hr' => walks_pure h₂ ⟨hr'.1, List.rel_append ?_ hr'.2⟩
    exact hr.2.imp fun _ _ he => he.later hlater₂

theorem judges_select (hrun : Carries env root depth run) {subject : Expr} {path : List Expr} {dflt : Option Expr}
    (h : Visit env root (depth + 1) ctx (.mk id span (.select subject path dflt)) s) :
    Judges env root ctx (.select subject path dflt) s (select run ctx subject path dflt) := by
  let f : Form Expr := .select subject path dflt
  have hsubject : subject ∈ f.judged := List.mem_cons_self
  have hsteps : ∀ p ∈ path, stepName? p = none → p ∈ f.judged := fun p hp hname =>
    List.mem_append_left _ (List.mem_cons_of_mem _ (List.mem_filter.2 ⟨hp, by simp [hname]⟩))
  have hsum : (f.judged.map Expr.worth).sum =
      subject.worth +
        (((path.filter fun e => (stepName? e).isNone).map Expr.worth).sum + (dflt.toList.map Expr.worth).sum) := by
    show ((subject :: path.filter (fun e => (stepName? e).isNone) ++ dflt.toList).map Expr.worth).sum = _
    rw [List.cons_append, List.map_cons, List.sum_cons, List.map_append, List.sum_append]
  refine Walks.account ?_ hsum.symm
  refine (hrun.expr (h.part hsubject)).bind fun J s₁ h₁ hlater₁ hJ => ?_
  refine (walks_recordOf h₁ fun henv => (h₁.viable henv hJ).ty).step fun r s₂ h₂ hlater₂ hr => ?_
  have hlater := hlater₁.trans hlater₂
  have hcurrent : env.Viable → ∀ t ∈ r.map fun r => Ty.record r.fields false, t.Viable := by
    intro henv t ht
    obtain ⟨k, hk, rfl⟩ := Option.mem_map.1 ht
    exact Ty.viable_record.2 (hr henv k hk)
  refine (walks_selectPath hrun h₂ (fun p hp hname => (h.part (hsteps p hp hname)).later h₂ hlater) hcurrent).bind
    fun found s₃ h₃ hlater₃ hfound => ?_
  have hdflt : Walks env root ctx.forcing s₃ (dflt.mapM fun e => run ctx (.expr e)) (dflt.toList.map Expr.worth).sum
      fun s₄ d => List.Forall₂ (Told s₄.history ctx.scopes) dflt.toList d.toList := by
    cases dflt with
    | none => exact walks_pure h₃ .nil
    | some e =>
      have he : e ∈ f.judged := List.mem_append_right _ List.mem_cons_self
      refine ((hrun.expr ((h.part he).later h₃ (hlater.trans hlater₃))).last fun J s₄ h₄ _ hJ =>
        walks_pure h₄ (.cons hJ .nil)).account (by simp)
  refine hdflt.last fun d s₄ h₄ hlater₄ hd => ?_
  have hfollows : ∀ (K : Judgment) (s₅ : State), Later s₄ s₅ → Use env K →
      Follows env (Told s₅.history) ctx.scopes f (.merged (J :: found.2 ++ d.toList ++ [K]) K.ty) := by
    intro K s₅ hlater₅ hK
    refine .select (hJ.later (hlater₂.trans (hlater₃.trans (hlater₄.trans hlater₅)))) ?_ ?_ hK
    · exact hfound.2.imp fun _ _ he => he.later (hlater₄.trans hlater₅)
    · exact hd.imp fun _ _ he => he.later hlater₅
  dsimp only
  split
  · next t htype =>
    refine (walks_instanceOf h₄ (fun henv => hfound.1 henv t htype) _).step fun K s₅ h₅ hlater₅ hK => ?_
    exact walks_pure h₅ (hfollows K s₅ hlater₅ hK)
  · next e hnone =>
    obtain ⟨p, -, hp⟩ := exists_of_forall₂ hd List.mem_cons_self
    refine walks_pure h₄ (hfollows _ s₄ (.refl s₄) (use_ofTy fun henv => (h₄.viable henv hp).ty))
  · exact (walks_unknown_use h₄).step fun K s₅ h₅ hlater₅ hK => walks_pure h₅ (hfollows K s₅ hlater₅ hK)

theorem judges_hasAttr (hrun : Carries env root depth run) {subject : Expr} {path : List Expr}
    (h : Visit env root (depth + 1) ctx (.mk id span (.hasAttr subject path)) s) :
    Judges env root ctx (.hasAttr subject path) s (hasAttr run ctx subject path) := by
  have hpart : ∀ p ∈ subject :: path.filter (fun e => (stepName? e).isNone), Visit env root depth ctx p s :=
    fun p hp => h.part hp
  refine (hrun.expr (hpart subject List.mem_cons_self)).bind fun J s₁ h₁ hlater₁ hJ => ?_
  refine (walks_exprs hrun ctx h₁ fun p hp => (hpart p (List.mem_cons_of_mem _ hp)).later h₁ hlater₁).last
    fun js s₂ h₂ hlater₂ hjs => walks_pure h₂ (.hasAttr (hJ.later hlater₂) hjs)

/-! ## All forms -/

theorem judges_expression (hrun : Carries env root depth run) (hroot : root.Everywhere Expr.Sourced) {f : Form Expr}
    (h : Visit env root (depth + 1) ctx (.mk id span f) s) : Judges env root ctx f s (expression env run ctx f) := by
  have hpart : ∀ p ∈ f.judged, Visit env root depth ctx p s := fun p hp => h.part hp
  cases f with
  | missing =>
    refine (walks_unknown h.holds).imp ?_
    rintro _ s₁ - - ⟨v, rfl⟩
    exact .missing v
  | literal l => exact walks_pure h.holds (.literal l)
  | ref x => exact walks_reference hrun h
  | apply fn arg =>
    refine Walks.account ?_ (by simp [Form.judged, Form.parts] : fn.worth + arg.worth = _)
    refine (hrun.expr (hpart fn List.mem_cons_self)).bind fun Jf s₁ h₁ hlater₁ hf => ?_
    refine (hrun.expr ((hpart arg (by simp [Form.judged, Form.parts])).later h₁ hlater₁)).last
      fun Ja s₂ h₂ hlater₂ ha => ?_
    refine (walks_freshTy h₂).step ?_
    rintro _ s₃ h₃ hlater₃ ⟨v, rfl⟩
    exact walks_pure h₃ (.apply (hf.later (hlater₂.trans hlater₃)) (ha.later hlater₃) v)
  | lambda param body =>
    cases param with
    | name x => exact judges_lambda hrun h
    | fields fs ellipsis whole => exact judges_pattern hrun h
  | letIn g body => exact judges_letIn hrun (hroot _ h.mem g rfl) h
  | set recursive g =>
    cases recursive with
    | true => exact judges_recSet hrun (hroot _ h.mem g rfl) h
    | false => exact judges_plainSet hrun h
  | list items => exact (walks_exprs hrun ctx h.holds hpart).last fun js s₁ h₁ _ hjs => walks_pure h₁ (.list hjs)
  | unary op e =>
    refine Walks.account ?_ (by simp [Form.judged, Form.parts] : e.worth = _)
    refine (hrun.expr (hpart e List.mem_cons_self)).last fun J s₁ h₁ hlater₁ hJ => ?_
    refine (walks_freshTy h₁).step ?_
    rintro _ s₂ h₂ hlater₂ ⟨v, rfl⟩
    exact walks_pure h₂ (.unary (hJ.later hlater₂) v)
  | binary op l r =>
    refine Walks.account ?_ (by simp [Form.judged, Form.parts] : l.worth + r.worth = _)
    refine (hrun.expr (hpart l List.mem_cons_self)).bind fun Jl s₁ h₁ hlater₁ hl => ?_
    refine (hrun.expr ((hpart r (by simp [Form.judged, Form.parts])).later h₁ hlater₁)).last
      fun Jr s₂ h₂ hlater₂ hr => ?_
    refine (walks_freshTy h₂).step ?_
    rintro _ s₃ h₃ hlater₃ ⟨v, rfl⟩
    exact walks_pure h₃ (.binary (hl.later (hlater₂.trans hlater₃)) (hr.later hlater₃) v)
  | select subject path dflt => exact judges_select hrun h
  | hasAttr subject path => exact judges_hasAttr hrun h
  | ifElse cond yes no =>
    refine Walks.account ?_ (by simp [Form.judged, Form.parts] : cond.worth + (yes.worth + no.worth) = _)
    refine (hrun.expr (hpart cond List.mem_cons_self)).bind fun Jc s₁ h₁ hlater₁ hc => ?_
    refine (hrun.expr ((hpart yes (by simp [Form.judged, Form.parts])).later h₁ hlater₁)).bind
      fun Jy s₂ h₂ hlater₂ hy => ?_
    refine (hrun.expr ((hpart no (by simp [Form.judged, Form.parts])).later h₂ (hlater₁.trans hlater₂))).last
      fun Jn s₃ h₃ hlater₃ hn => ?_
    exact walks_pure h₃ (.ifElse (hc.later (hlater₂.trans hlater₃)) (hy.later hlater₃) hn)
  | withIn scope body =>
    refine Walks.account ?_ (by simp [Form.judged, Form.parts] : scope.worth + body.worth = _)
    refine (hrun.expr (hpart scope List.mem_cons_self)).bind fun Js s₁ h₁ hlater₁ hs => ?_
    refine (walks_recordOf h₁ fun henv => (h₁.viable henv hs).ty).step fun r s₂ h₂ hlater₂ hr => ?_
    have hbody := (hpart body (by simp [Form.judged, Form.parts])).later h₂ (hlater₁.trans hlater₂)
    refine (hrun.expr (hbody.enterWith hr)).last fun Jb s₃ h₃ hlater₃ hb => ?_
    exact walks_pure h₃ (.withIn r (hs.later (hlater₂.trans hlater₃)) hb)
  | assertIn cond body =>
    refine Walks.account ?_ (by simp [Form.judged, Form.parts] : cond.worth + body.worth = _)
    refine (hrun.expr (hpart cond List.mem_cons_self)).bind fun Jc s₁ h₁ hlater₁ hc => ?_
    refine (hrun.expr ((hpart body (by simp [Form.judged, Form.parts])).later h₁ hlater₁)).last
      fun Jb s₂ h₂ hlater₂ hb => ?_
    exact walks_pure h₂ (.assertIn (hc.later hlater₂) hb)
  | stringParts ps =>
    exact (walks_exprs hrun ctx h.holds hpart).last fun js s₁ h₁ _ hjs => walks_pure h₁ (.stringParts hjs)
  | pathParts ps => exact (walks_exprs hrun ctx h.holds hpart).last fun js s₁ h₁ _ hjs => walks_pure h₁ (.pathParts hjs)

theorem State.judged_after (s : State) (ctx : Context) (e : Expr) (J : Judgment) :
    (s.after (.judged ctx e J)).judged = e ::ₘ s.judged := rfl

/-- An expression is judged, and the history tells of it. -/
theorem walks_expr (hrun : Carries env root depth run) (hroot : root.Everywhere Expr.Sourced) {e : Expr}
    (h : Visit env root (depth + 1) ctx e s) :
    Walks env root ctx.forcing s
      (do
        let j ← expression env run ctx e.form
        record fun _ => .judged ctx e j
        return j)
      e.worth fun s' J => Told s'.history ctx.scopes e J := by
  obtain ⟨id, span, f⟩ := e
  obtain ⟨J, s₁, hrun₁, h₁, hadvance, hJ⟩ := judges_expression hrun hroot h
  have hafter : Holds env root ctx.forcing (s₁.after (.judged ctx (.mk id span f) J)) :=
    h₁.after rfl (by rintro _ _ _ ⟨⟩; exact hJ) (by rintro _ _ ⟨⟩)
  refine ⟨J, s₁.after (.judged ctx (.mk id span f) J), hrun₁.bind ((runs_modify _ s₁).bind (runs_pure J _)), hafter, ?_,
    ctx, rfl, List.mem_cons_self⟩
  refine ⟨hadvance.history.trans (List.suffix_cons _ _), hadvance.size, hadvance.waits, ?_⟩
  have haccount : s₁.judged + s₁.pool = s.judged + s.pool + (f.judged.map Expr.worth).sum := hadvance.account
  have hpool : (s₁.after (.judged ctx (.mk id span f) J)).pool = s₁.pool := rfl
  rw [s₁.judged_after, hpool, Expr.worth_eq, Multiset.cons_add, haccount, Multiset.add_cons]
  rfl

end Parts

/-! ## Slots -/

section Slots
variable {env : Env} {root : Expr} {depth : Nat} {run : Runner} {ctx : Context} {d : Deferral} {s : State} {i : Nat}
  {p : Pending}

/-- A field waits for a source, which is an expression. -/
theorem Deferral.delay_source (hp : p ∈ d.pendings) {source : Nat} {name : String}
    (hvalue : p.value = .field source name) {q : Pending} (hq : d.pendings[source - d.first]? = some q) :
    q.delay = 0 := by
  obtain ⟨k, hp⟩ := List.mem_iff_getElem?.1 hp
  rcases d.getElem?_pendings hp with ⟨_, b, -, rfl⟩ | ⟨_, _, -, -, rfl⟩
  · cases b with
    | expr e | «inherit» e => cases hvalue
    | inheritFrom l =>
      cases hvalue
      rcases d.getElem?_pendings hq with ⟨_, b, hb, -⟩ | ⟨_, _, -, -, rfl⟩
      · have := (List.getElem?_eq_some_iff.1 hb).1
        omega
      · rfl
  · cases hvalue

theorem Holds.forcing (h : Holds env root (i :: ctx.forcing) s) (hp : s.plan[i]? = some p) :
    s.slot? i = some .forcing := by
  obtain ⟨x, hx, hphase⟩ := h.phase i p hp
  cases x with
  | reserved => exact hphase.elim
  | deferred q => exact absurd List.mem_cons_self hphase.2
  | forcing => exact hx
  | forced J => exact absurd List.mem_cons_self hphase.1

theorem runs_finish {J : Judgment} (h : s.slot? i = some .forcing) :
    Runs (changeSlots (·.finish i J)) s () (s.put i (.forced J)) := by
  have hfinish : s.slots.finish i J = .ok (s.slots.put i (.forced J)) := by
    rw [Slots.finish, show s.slots.slots[i]? = some .forcing from h]
  exact runs_changeSlots hfinish

/-- What was computed for a slot is put into it. -/
theorem Walks.finish (hslot : s.slot? i = some (.deferred p)) (hi : i ∉ ctx.forcing) (hp : s.plan[i]? = some p)
    {m : Judging Judgment}
    (hm : Walks env root (i :: ctx.forcing) (s.put i .forcing) m p.worth fun s₁ J =>
      Fulfils env (Told s₁.history) p J) :
    ∃ J s', Runs (do let j ← m; changeSlots (·.finish i j); return j) (s.put i .forcing) J s' ∧
      Holds env root ctx.forcing s' ∧ Advance s s' 0 ∧ Gives env ctx.forcing i s' J := by
  obtain ⟨J, s₁, hrun, h₁, hadvance, hJ⟩ := hm
  have hplan : s₁.plan[i]? = some p := hadvance.planned hp
  have hforcing := h₁.forcing hplan
  refine ⟨J, s₁.put i (.forced J), hrun.bind ((runs_finish hforcing).bind (runs_pure J _)),
    h₁.finish hi hplan hJ, ?_, ?_⟩
  · refine ⟨hadvance.history, ?_, fun k q hk => ?_, ?_⟩
    · rw [State.size_put, ← s.size_put i .forcing]
      exact hadvance.size
    · have hki : k ≠ i := by
        rintro rfl
        rw [State.slot?_put_self (State.lt_size hforcing)] at hk
        cases hk
      rw [State.slot?_put_ne hki] at hk
      have hwait := hadvance.waits k q hk
      rwa [State.slot?_put_ne hki] at hwait
    · -- `p` left the pool when its slot was forced, and the run accounts for it
      have hstart : (s.put i .forcing).pool + p.worth = s.pool + 0 := State.pool_put hslot .forcing
      have hend : (s₁.put i (.forced J)).pool + 0 = s₁.pool + 0 := State.pool_put hforcing (.forced J)
      have hjudged : (s.put i .forcing).judged = s.judged := rfl
      have haccount := hadvance.account
      rw [add_assoc, hstart, hjudged] at haccount
      simp only [add_zero] at hend haccount ⊢
      rw [hend]
      exact haccount
  · refine ⟨fun henv => (hJ.viable henv fun _ _ _ hJ => h₁.viable henv hJ).ty, fun _ => ?_⟩
    exact State.slot?_put_self (State.lt_size hforcing) _

/-- The judgment of what waits in a slot. -/
def pendingJudgment (run : Runner) (inner : Context) : Deferred → Judging Judgment
  | .expr e => run inner (.expr e)
  | .field source name => do fieldOf (← run inner (.force source)).ty name

theorem finishSlot_eq (run : Runner) (ctx : Context) (i : Nat) (p : Pending) :
    finishSlot run ctx i p = (do
      let j ← pendingJudgment run ⟨p.scopes, p.mono, i :: ctx.forcing⟩ p.value
      changeSlots (·.finish i j)
      return j) := by
  unfold finishSlot pendingJudgment
  cases p.value with
  | expr e => rfl
  | field source name => exact (bind_assoc _ _ _).symm

theorem walks_pending (hrun : Carries env root depth run) (hroot : root.Everywhere Expr.Sourced)
    (h : Holds env root ctx.forcing s) (hd : Event.deferred d ∈ s.history) (hi : d.has i = true)
    (hserves : d.Serves ctx.forcing) (hleads : d.Leads ctx.forcing i) (hp : d.pendings[i - d.first]? = some p)
    (hslot : s.slot? i = some (.deferred p))
    (hdepth : 3 * s.load + p.delay ≤ depth) :
    Walks env root (i :: ctx.forcing) (s.put i .forcing)
      (pendingJudgment run ⟨p.scopes, p.mono, i :: ctx.forcing⟩ p.value) p.worth fun s₁ J =>
        Fulfils env (Told s₁.history) p J := by
  have h₁ : Holds env root (i :: ctx.forcing) (s.put i .forcing) := h.force hslot
  have hplaced := h.placed d hd
  obtain ⟨origin, horigin, hgroup⟩ := hplaced.origin
  have hpool : (s.put i .forcing).pool + p.worth = s.pool + 0 := State.pool_put hslot .forcing
  have hload : (s.put i .forcing).load + p.worth.card = s.load := by
    rw [State.load, ← Multiset.card_add, hpool, add_zero]
    rfl
  have hmem := List.mem_of_getElem? hp
  have hroom : d.first + d.size ≤ (s.put i .forcing).size := by
    rw [State.size_put]
    have := d.has_iff.1 hi
    exact (h.size_of_deferred hd).resolve_right (by omega)
  unfold Fulfils
  cases hvalue : p.value with
  | expr e =>
    have hworth : p.worth = e.worth := by rw [Pending.worth, hvalue]
    rw [hworth] at hload
    refine Walks.account
      (hrun.expr ⟨?_, hplaced.stands_pending hd hi hserves hleads hp hroom hvalue, h₁, ?_⟩) hworth.symm
    · have hpart : e ∈ origin.parts := Form.mem_parts_of_group hgroup (d.mem_parts_of_pending hmem hvalue)
      exact Expr.all_trans (Expr.mem_all.2 (.inr ⟨e, hpart, Expr.mem_all.2 (.inl rfl)⟩)) horigin
    · omega
  | field source name =>
    have hworth : p.worth = 0 := by rw [Pending.worth, hvalue]
    have hdelay : p.delay = 1 := by rw [Pending.delay, hvalue]
    refine Walks.account ?_ hworth.symm
    have hsourced := hroot origin horigin _ hgroup
    have hasks := Deferral.asks_source hd hi hserves hleads hp hsourced hvalue
    obtain ⟨q, -, hq, hplan, -⟩ := h.slot hd (d.has_source hmem hsourced hvalue)
    have hrequest : Request env root depth ⟨p.scopes, p.mono, i :: ctx.forcing⟩ source (s.put i .forcing) := by
      refine ⟨hasks, h₁, fun q' hq' => ?_⟩
      obtain rfl : q = q' := Option.some.inj (hplan.symm.trans hq')
      have := Deferral.delay_source hmem hvalue hq
      omega
    exact (hrun.force hrequest).step fun J s₁ h₁ _ hJ => walks_fieldOf h₁ hJ.viable name

/-- A slot that is needed for its own judgment is unknown. -/
theorem walks_loop (h : Holds env root ctx.forcing s) (hasks : Asks s.history ctx.forcing i) (hi : i ∈ ctx.forcing) :
    Walks env root ctx.forcing s (do note (.refersToItself i); record fun _ => .looped ctx i; unknown) 0 fun s' J =>
      Gives env ctx.forcing i s' J := by
  have hafter : Holds env root ctx.forcing (s.after (.looped ctx i)) :=
    h.after rfl (by rintro _ _ _ ⟨⟩) (by rintro _ _ ⟨⟩; exact hasks.onCycle hi)
  let s₁ : State := { s.after (.looped ctx i) with notes := s.notes.push (.refersToItself i) }
  have h₁ : Holds env root ctx.forcing s₁ := by
    refine { hafter with noted := fun k hk => ?_ }
    rcases Array.mem_push.1 hk with hk | hk
    · exact hafter.noted k hk
    · cases hk
      exact ⟨ctx, List.mem_cons_self⟩
  have hadvance : Advance s s₁ 0 := ⟨List.suffix_cons _ _, le_rfl, fun _ _ hk => hk, (add_zero _).symm⟩
  obtain ⟨_, s₂, hrun, h₂, hadvance', v, rfl⟩ := walks_unknown h₁
  refine ⟨_, s₂, (runs_modify _ s).bind ((runs_modify _ _).bind hrun), h₂, hadvance.trans hadvance', ?_⟩
  exact ⟨fun _ => .var v, fun hidle => absurd hi hidle⟩

theorem walks_force (hrun : Carries env root depth run) (hroot : root.Everywhere Expr.Sourced)
    (h : Request env root (depth + 1) ctx i s) :
    Walks env root ctx.forcing s (force run ctx i) 0 fun s' J => Gives env ctx.forcing i s' J := by
  obtain ⟨d, hd, hi, hserves, hleads⟩ := h.asks
  obtain ⟨p, x, hp, hplan, hx, hphase⟩ := h.holds.slot hd hi
  have hforce := run_force run ctx i s
  rw [hx] at hforce
  simp only [finishSlot_eq] at hforce
  cases x with
  | reserved => exact hphase.elim
  | deferred q =>
    obtain ⟨rfl, hidle⟩ := hphase
    have hdepth := h.fits q hplan
    have hpending := walks_pending hrun hroot h.holds hd hi hserves hleads hp hx (by omega)
    obtain ⟨J, s', hruns, hs', hadvance, hJ⟩ := Walks.finish hx hidle hplan hpending
    exact ⟨J, s', hforce.trans hruns, hs', hadvance, hJ⟩
  | forcing =>
    obtain ⟨J, s', hruns, hrest⟩ := walks_loop h.holds h.asks hphase
    exact ⟨J, s', hforce.trans hruns, hrest⟩
  | forced J =>
    refine ⟨J, s, hforce, h.holds, .refl s, fun henv => ?_, fun _ => hx⟩
    exact (hphase.2.viable henv fun _ _ _ hJ => h.holds.viable henv hJ).ty

end Slots

/-! ## The walk -/

/-- The walk carries out every visit and every request that fits its depth. None fits depth zero, and one
level more is one walked expression or one needed slot. -/
theorem carries_runTo (env : Env) {root : Expr} (hroot : root.Everywhere Expr.Sourced) (depth : Nat) :
    Carries env root depth (runTo env depth) := by
  induction depth with
  | zero =>
    refine ⟨fun {ctx e s} h => ?_, fun {ctx i s} h => ?_⟩
    · have := h.fits
      have := e.card_worth
      omega
    · obtain ⟨d, hd, hi, -⟩ := h.asks
      obtain ⟨p, -, -, hplan, -⟩ := h.holds.slot hd hi
      have := h.fits p hplan
      omega
  | succ depth ih => exact ⟨fun h => walks_expr ih hroot h, fun h => walks_force ih hroot h⟩

end Judging

open Judging

theorem Expr.card_worth_le (e : Expr) : e.worth.card ≤ e.all.length := by
  induction e using parts_induction with
  | h e ih =>
    have hcard : ((e.form.judged.map worth).sum).card = (e.form.judged.map fun p => p.worth.card).sum :=
      (map_list_sum Multiset.cardHom _).trans (congrArg List.sum (List.map_map ..))
    have hjudged : (e.form.judged.map fun p => p.worth.card).sum ≤ (e.form.judged.map fun p => p.all.length).sum :=
      List.sum_le_sum fun p hp => ih p (Form.judged_subset hp)
    have hparts : (e.form.judged.map fun p => p.all.length).sum ≤ (e.parts.map fun p => p.all.length).sum :=
      (e.form.judged_sublist.map _).sum_le_sum fun _ _ => Nat.zero_le _
    rw [card_worth, hcard, length_all]
    omega

theorem holds_start (env : Env) (root : Expr) : Holds env root [] {} where
  planned := rfl
  phase i p hp := by simp [State.plan] at hp
  live i hi := by cases hi
  laid d hd := by cases hd
  placed d hd := by cases hd
  lawful ctx e J hJ := by cases hJ
  looped ctx i hi := by cases hi
  noted i hi := by simp at hi
  known henv r hr := by cases hr

/-- A walk over an expression succeeds: it judges everything under it once, and by the rules. -/
theorem Expr.judge_total {e : Expr} (he : e.Everywhere Sourced) (env : Env) :
    ∃ J s, e.judge env = .ok (J, s) ∧ Holds env e [] s ∧ s.judged = e.worth ∧ Told s.history [] e J := by
  have hvisit : Visit env e (depthOf e) {} e {} := by
    refine ⟨mem_all.2 (.inl rfl), stands_nil, holds_start env e, ?_⟩
    have := e.card_worth_le
    have hload : State.load {} = 0 := rfl
    rw [hload, depthOf]
    omega
  obtain ⟨J, s, hrun, hs, hadvance, hJ⟩ := (carries_runTo env he (depthOf e)).expr hvisit
  refine ⟨J, s, hrun, hs, ?_, hJ⟩
  have hpool : s.pool = 0 := Multiset.card_eq_zero.1 (Nat.le_zero.1 hadvance.load_le)
  have hstart : State.judged {} + State.pool {} = 0 := rfl
  simpa [hpool, hstart] using hadvance.account

end NixTyping
