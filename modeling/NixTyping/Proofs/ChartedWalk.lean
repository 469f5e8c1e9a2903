import Mathlib
import NixTyping.Infer
import NixTyping.Proofs.ChartedState
/-!
# The walk keeps a chart

For each form of expression it is shown that the walk yields a judgment that is sound
at its place (`Judged`); for all of a walk this follows by induction on its depth
(`charts_runTo`). So the constraints that are generated for a layered expression are
settled.
-/

namespace NixTyping

open Judging

/-- All schemes that the environment has for a name are closed. -/
def Env.Closed (env : Env) : Prop := ∀ name schemes, env.lookup name = some schemes → ∀ σ ∈ schemes, ∀ v, v ∉ σ.free

namespace Chart

variable {env : Env} {run : Runner} {g g' : Chart} {s : State} {ctx : Context} {N : VarSet} {u outer : Place}
  {home : List Scope} {i : Nat} {J : Judgment} {S S' I I' : Prop}

/-- A judgment at a place. If `S` its type was made there, and if `I` it is no record. -/
structure Judged (g : Chart) (ctx : Context) (u : Place) (S I : Prop) (J : Judgment) : Prop where
  sound : g.Sound ctx.mono ctx.scopes J
  owned : g.Owned ctx.mono u J.ty
  made : S → g.Made u J.ty
  notRecord : I → ∀ fields isOpen, J.ty ≠ .record fields isOpen

theorem Judged.grow (h : g.Judged ctx u S I J) (hext : g.Extends g') : g'.Judged ctx u S I J where
  sound := h.sound.grow hext
  owned := h.owned.grow hext
  made hS := (h.made hS).grow hext
  notRecord := h.notRecord

theorem Judged.imp (h : g.Judged ctx u S I J) (hS : S' → S) (hI : I' → I) : g.Judged ctx u S' I' J :=
  { h with made := fun h' => h.made (hS h'), notRecord := fun h' => h.notRecord (hI h') }

/-- A judgment at a variable, which may be bound to a record. -/
theorem judged_var {v : Nat} (hJ : g.Sound ctx.mono ctx.scopes J) (hN : ∀ w ∈ N, w ∈ ctx.mono)
    (hv : g.vars[v]? = some (u, N)) (hty : J.ty = .var v) : g.Judged ctx u S I J where
  sound := hJ
  owned w hw := by
    rw [hty] at hw
    rw [Ty.mem_free_var.1 hw]
    exact ⟨u, N, hv, List.suffix_refl u, fun _ => hN⟩
  made _ w hw := by
    rw [hty] at hw
    rw [Ty.mem_free_var.1 hw]
    exact ⟨N, hv⟩
  notRecord _ fields isOpen heq := by
    rw [hty] at heq
    cases heq

theorem judged_fresh (hJ : g.Sound ctx.mono ctx.scopes J) (hty : g.Fresh u J.ty) : g.Judged ctx u S I J := by
  obtain ⟨v, hv, hvar⟩ := hty
  exact judged_var hJ (fun w hw => (VarSet.mem_empty hw).elim) hvar hv

theorem judged_prim {p : Prim} (hJ : g.Sound ctx.mono ctx.scopes J) (hty : J.ty = .prim p) : g.Judged ctx u S I J where
  sound := hJ
  owned := hty ▸ owned_prim g _ u p
  made _ := hty ▸ made_prim g u p
  notRecord _ fields isOpen heq := by
    rw [hty] at heq
    cases heq

/-- The runner keeps a chart. A slot that is needed for its own judgment gets a fresh
variable, at a place that may be chosen. -/
structure Charts (run : Runner) : Prop where
  expr : ∀ {ctx : Context} {u : Place} {g : Chart} {s : State} (e : Expr), e.Everywhere Expr.Orderly →
    g.Surrounds ctx u → g.Describes ctx.forcing s →
      Yields ctx.forcing g s (run ctx (.expr e)) fun g₁ J => g₁.Judged ctx u e.Sealed e.Indirect J
  force : ∀ {ctx : Context} {u outer : Place} {home : List Scope} {g : Chart} {s : State} {i : Nat} {N : VarSet}
    (q : Nat → Place), g.slots[i]? = some (.slot i N :: outer, home) → outer <:+ u → home <:+ ctx.scopes →
    g.Surrounds ctx u → g.Describes ctx.forcing s →
      Yields ctx.forcing g s (run ctx (.force i)) fun g₁ J => (i ∉ ctx.forcing ∧ g₁.Done i N outer home J) ∨
        (i ∈ ctx.forcing ∧ ∃ w, J = .ofTy (.var w) ∧ g₁.vars[w]? = some (q w, ∅))

/-! ## Names -/

section Names
variable {x : String}

/-- An occurrence of a name that no group binds, at a new variable. -/
theorem judged_reference (hctx : g.Surrounds ctx u) {v : Nat} (hN : ∀ w ∈ N, w ∈ ctx.mono)
    (hv : g.vars[v]? = some (u, N))
    (hbody : ∀ i M, lexicalIn ctx.scopes x = some (.letBody i M) → ∃ h, g.hosts.lookup i = some h ∧ g.Clear u h)
    (hgroup : ∀ i M components, lexicalIn ctx.scopes x ≠ some (.group i M components)) :
    g.Judged ctx u S I (.reference x (.var v)) :=
  judged_var (sound_reference ⟨⟨N, hv⟩, hctx.fixed, hbody, hgroup⟩) hN hv rfl

/-- An instance of a type that is at home at a closed place. -/
theorem judged_instance (hctx : g.Surrounds ctx u) (h : g.Describes ctx.forcing s) {v : Nat}
    (hN : ∀ w ∈ N, w ∈ ctx.mono) (hv : g.vars[v]? = some (u, N)) {p : Place} (hclosed : p ∈ g.closed)
    (hmono : p.mono = N) {t : Ty} (ht : ∀ w ∈ t.free, g.Within p w) :
    g.Judged ctx u S I (.constrained (.implicit (.var v) N t) (.var v)) := by
  refine judged_var (sound_constrained ?_ _) hN hv rfl
  refine settled_implicit (fun w hw => ?_) (fun w hw => hctx.fixed w (hN w hw)) hmono ht (h.clear hctx hclosed)
  rw [Ty.mem_free_var.1 hw]
  exact Issued.fixed ⟨N, hv⟩

/-- What a use of a binding gives: its definition is closed, or it is being judged and
a variable at a place of its own stands for it. -/
structure Used (g : Chart) (F : List Nat) (u : Place) (i : Nat) (N : VarSet) (v : Nat) (t : Ty) : Prop where
  var : g.vars[v]? = some (u, N)
  ty : (i ∉ F ∧ ∃ p, g.hosts.lookup i = some p ∧ p ∈ g.closed ∧ p.mono = N ∧ ∀ v ∈ t.free, g.Within p v) ∨
    (i ∈ F ∧ ∃ w, t = .var w ∧ g.vars[w]? = some ([.loose w N], ∅))

theorem Used.grow {F : List Nat} {v : Nat} {t : Ty} (h : g.Used F u i N v t) (hext : g.Extends g') :
    g'.Used F u i N v t := by
  refine ⟨hext.var h.var, h.ty.imp ?_ ?_⟩
  · rintro ⟨hi, p, hhost, hclosed, hmono, hwithin⟩
    exact ⟨hi, p, hext.host hhost, hext.mem_closed hclosed, hmono, fun v hv => (hwithin v hv).grow hext⟩
  · rintro ⟨hi, w, ht, hw⟩
    exact ⟨hi, w, ht, hext.var hw⟩

theorem yields_letBound (hrun : Charts run) (hslot : g.slots[i]? = some (.slot i N :: outer, home))
    (houter : outer <:+ u) (hhome : home <:+ ctx.scopes) (hctx : g.Surrounds ctx u) (h : g.Describes ctx.forcing s) :
    Yields ctx.forcing g s (letBound run ctx i N) fun g₁ r => g₁.Used ctx.forcing u i N r.1 r.2 := by
  refine (yields_fresh h (fun _ => u) N).bind fun g₁ s₁ v hext₁ h₁ hv => ?_
  refine (hrun.force (fun w => [.loose w N]) (hext₁.slot hslot) houter hhome (hctx.grow hext₁) h₁).bind ?_
  intro g₂ s₂ J hext₂ h₂ hJ
  have hused : g₂.Used ctx.forcing u i N v J.ty := by
    refine ⟨hext₂.var hv, hJ.imp ?_ ?_⟩
    · rintro ⟨hi, hdone⟩
      obtain ⟨p, hhost, hclosed, hmono, -, howned⟩ := hdone.host
      exact ⟨hi, p, hhost, hclosed, hmono, howned.within⟩
    · rintro ⟨hi, w, rfl, hw⟩
      exact ⟨hi, w, rfl, hw⟩
  cases hty : J.ty with
  | record fields isOpen =>
    rw [hty] at hused
    obtain ⟨-, p, -, hclosed, hmono, hwithin⟩ := hused.ty.resolve_right (by rintro ⟨-, w, ⟨⟩, -⟩)
    have htaken : g₂.Taken N (.record fields false) (.letBound N) :=
      ⟨fun _ hw => hw, p, hclosed, hmono, fun w hw => hwithin w ((Ty.partOf_record fields false isOpen).free w hw)⟩
    refine (yields_remember h₂ hused.var htaken).bind fun g₃ s₃ _ hext₃ h₃ _ => ?_
    exact yields_pure h₃ (hused.grow hext₃)
  | _ => exact yields_pure h₂ (hty ▸ hused)

theorem taken_ambient (henv : env.Closed) {vars : List Nat} {fields : List (String × Ty)} {isOpen : Bool}
    (hx : env.lookup x = some [⟨vars, .record fields isOpen⟩]) (g : Chart) :
    g.Taken ∅ (.record fields false) (.ambient vars) := by
  intro v hv
  by_contra hvars
  refine henv x _ hx _ (List.mem_singleton.2 rfl) v (Scheme.mem_free.2 ⟨?_, hvars⟩)
  exact (Ty.partOf_record fields false isOpen).free v hv

theorem yields_ambientName (henv : env.Closed) {schemes : List Scheme} (hx : env.lookup x = some schemes)
    (hlexical : lexicalIn ctx.scopes x = none) (hctx : g.Surrounds ctx u) (h : g.Describes ctx.forcing s) :
    Yields ctx.forcing g s (ambientName x schemes) fun g₁ J => g₁.Judged ctx u S I J := by
  refine (yields_fresh h (fun _ => u) ∅).bind fun g₁ s₁ v hext₁ h₁ hv => ?_
  have hend : ∀ {g₂ : Chart} {s₂ : State}, g₁.Extends g₂ → g₂.Describes ctx.forcing s₂ →
      Yields ctx.forcing g₂ s₂ (pure (.reference x (.var v))) fun g₃ J => g₃.Judged ctx u S I J := by
    intro g₂ s₂ hext₂ h₂
    refine yields_pure h₂ (judged_reference (hctx.grow (hext₁.trans hext₂)) ?_ (hext₂.var hv) ?_ ?_)
    · exact fun w hw => (VarSet.mem_empty hw).elim
    · simp [hlexical]
    · simp [hlexical]
  split
  · next vars fields isOpen =>
    exact (yields_remember h₁ hv (taken_ambient henv hx g₁)).bind fun g₂ s₂ _ hext₂ h₂ _ => hend hext₂ h₂
  · exact hend (.refl g₁) h₁

theorem yields_openedName (hlexical : lexicalIn ctx.scopes x = none) (hctx : g.Surrounds ctx u)
    (h : g.Describes ctx.forcing s) :
    Yields ctx.forcing g s (openedName ctx x) fun g₁ J => g₁.Judged ctx u S I J := by
  unfold openedName
  simp only
  split
  · next t o hfound =>
    -- the field stands in a record that was taken out of a binding, so its use is an instance
    obtain ⟨r, hr, hfield⟩ := List.exists_of_findSome?_eq_some hfound
    simp only [Option.bind_eq_bind, Option.bind_eq_some_iff, Option.pure_def, Option.some.injEq,
      Prod.mk.injEq] at hfield
    obtain ⟨k, rfl, t', ht', rfl, rfl⟩ := hfield
    have htaken := (hctx.charted.opened hr).part (Ty.partOf_field (mem_of_findKey ht') false)
    refine (yields_instanceOf hctx h (.inr htaken)).imp fun g₁ J hext hJ => judged_fresh hJ.1 ?_
    refine hJ.2.resolve_right fun hhere => ?_
    rw [hhere.1] at htaken
    exact htaken
  · split
    · refine (yields_freshTy h u).bind fun g₁ s₁ t hext h₁ ht => yields_pure h₁ ?_
      obtain ⟨v, rfl, hv⟩ := ht
      refine judged_reference (hctx.grow hext) (fun w hw => (VarSet.mem_empty hw).elim) hv ?_ ?_
      · simp [hlexical]
      · simp [hlexical]
    · refine (yields_note h _).bind fun g₁ s₁ _ _ h₁ _ => ?_
      exact (yields_unknown h₁ _ _ u).imp fun _ _ _ hJ => judged_fresh hJ.1 hJ.2

/-- In a component of one definition the slot that is needed is the one being judged. -/
theorem mem_forcing_of_inOwnComponent {components : List (Nat × Nat)}
    (hsingle : ∀ i j c, components.lookup i = some c → components.lookup j = some c → i = j)
    (hown : ctx.inOwnComponent components i = true) : i ∈ ctx.forcing := by
  unfold Context.inOwnComponent at hown
  split at hown
  · next owner howner =>
    have hsome := List.find?_some howner
    obtain ⟨c, hc⟩ := Option.isSome_iff_exists.1 hsome
    have hi : components.lookup i = some c := by rw [← of_decide_eq_true hown, hc]
    rw [hsingle i owner c hi hc]
    exact List.mem_of_find?_eq_some howner
  · cases hown

theorem yields_reference (henv : env.Closed) (hrun : Charts run) (hctx : g.Surrounds ctx u)
    (h : g.Describes ctx.forcing s) (x : String) :
    Yields ctx.forcing g s (reference env run ctx x) fun g₁ J => g₁.Judged ctx u S I J := by
  have hlexical : ctx.lexical? x = lexicalIn ctx.scopes x := rfl
  unfold reference
  rw [hlexical]
  cases hx : lexicalIn ctx.scopes x with
  | none =>
    simp only
    cases hconst : constant? x with
    | some t =>
      obtain ⟨p, rfl⟩ := constant?_prim hconst
      exact yields_pure h (judged_prim (sound_ofTy _ _ _ _) rfl)
    | none =>
      cases hlookup : env.lookup x with
      | some schemes => exact yields_ambientName henv hlookup hx hctx h
      | none => exact yields_openedName hx hctx h
  | some l =>
    cases l with
    | param =>
      refine (yields_freshTy h u).bind fun g₁ s₁ t hext h₁ ht => yields_pure h₁ ?_
      obtain ⟨v, rfl, hv⟩ := ht
      refine judged_reference (hctx.grow hext) (fun w hw => (VarSet.mem_empty hw).elim) hv ?_ ?_
      · simp [hx]
      · simp [hx]
    | letBody slot M =>
      obtain ⟨home, hhome, hM, ⟨outer, houter, hslot⟩, hbody⟩ := hctx.charted.letBody_of_lexical hx
      refine (yields_letBound hrun hslot houter hhome hctx h).bind fun g₁ s₁ r hext h₁ hused => yields_pure h₁ ?_
      -- the body of a `let` is judged while none of its bindings is
      obtain ⟨-, p, hhost, hclosed, -, -⟩ := hused.ty.resolve_right fun hloop => hctx.bodies slot hbody hloop.1
      refine judged_reference (hctx.grow hext) hM hused.var (fun i M' hi => ?_) (by simp [hx])
      rw [hx] at hi
      cases hi
      exact ⟨p, hhost, h₁.clear (hctx.grow hext) hclosed⟩
    | group slot M components =>
      obtain ⟨home, hhome, hM, ⟨outer, houter, hslot⟩, hsingle⟩ := hctx.charted.group_of_lexical hx
      simp only
      split
      · next hown =>
        have hmem := mem_forcing_of_inOwnComponent hsingle hown
        refine (hrun.force (fun _ => u) hslot houter hhome hctx h).bind fun g₁ s₁ J hext h₁ hJ => yields_pure h₁ ?_
        obtain ⟨-, w, rfl, hw⟩ := hJ.resolve_left fun hdone => hdone.1 hmem
        exact judged_fresh (sound_ofTy _ _ _ _) ⟨w, rfl, hw⟩
      · refine (yields_letBound hrun hslot houter hhome hctx h).bind fun g₁ s₁ r hext h₁ hused => ?_
        rcases hused.ty with ⟨-, p, -, hclosed, hmono, hwithin⟩ | ⟨-, w, hty, hw⟩
        · exact yields_pure h₁ (judged_instance (hctx.grow hext) h₁ hM hused.var hclosed hmono hwithin)
        · -- the variable that stands for the binding gets a place of its own, which is closed at once
          have hext₂ := extends_close g₁ [.loose w M]
          have h₂ := h₁.close_loose w M
          refine Yields.after hext₂ (yields_pure h₂ (judged_instance (hctx.grow (hext.trans hext₂)) h₂ hM
            (hext₂.var hused.var) (p := [.loose w M]) (List.mem_append_right _ (by simp)) rfl fun v hv => ?_))
          rw [hty] at hv
          rw [Ty.mem_free_var.1 hv]
          exact ⟨[.loose w M], ⟨∅, hw⟩, List.suffix_refl _⟩

end Names

/-! ## Groups -/

theorem Surrounds.enter {sc : Scope} (hctx : g.Surrounds ctx u) (hsc : g.Charted ctx.mono u (sc :: ctx.scopes))
    (hbody : ∀ i ∈ bodySlots [sc], i ∉ ctx.forcing) : g.Surrounds (ctx.enter sc) u where
  fixed := hctx.fixed
  frames := hctx.frames
  charted := hsc
  bodies i hi := by
    rcases List.mem_append.1 hi with hi | hi
    · exact hbody i (List.mem_append_left _ hi)
    · exact hctx.bodies i hi

section Groups
variable {b : Bindings Expr}

/-- The slot is reserved for a definition at the place. -/
def Placed (g : Chart) (ctx : Context) (u : Place) (i : Nat) : Prop :=
  g.slots[i]? = some (.slot i ctx.mono :: u, ctx.scopes) ∧ i ∉ ctx.forcing

theorem Placed.grow (h : g.Placed ctx u i) (hext : g.Extends g') : g'.Placed ctx u i := ⟨hext.slot h.1, h.2⟩

theorem Placed.seen (h : g.Placed ctx u i) : g.Seen ctx.mono u ctx.scopes i := ⟨u, List.suffix_refl u, h.1⟩

/-- What comes of a group: its scope, its names, and a slot for each of its bindings
and sources. -/
structure Grouped (g : Chart) (ctx : Context) (u : Place) (b : Bindings Expr) (G : Group) : Prop where
  scope : ∃ components, G.scope = .group G.names ctx.mono components ∧ g.Charted ctx.mono u (G.scope :: ctx.scopes)
  names : G.names.map (·.1) = b.names
  bindings : ∀ x ∈ G.names, g.Placed ctx u x.2
  sources : ∀ i ∈ G.sources, g.Placed ctx u i

theorem Grouped.grow {G : Group} (h : g.Grouped ctx u b G) (hext : g.Extends g') : g'.Grouped ctx u b G := by
  obtain ⟨components, hscope, hcharted⟩ := h.scope
  exact ⟨⟨components, hscope, hcharted.grow hext⟩, h.names, fun x hx => (h.bindings x hx).grow hext,
    fun i hi => (h.sources i hi).grow hext⟩

theorem yields_reserveNames (h : g.Describes ctx.forcing s) (u : Place) (names : List String) :
    Yields ctx.forcing g s (names.mapM fun name => return (name, ← Judging.reserve)) fun g₁ ns =>
      ns.map (·.1) = names ∧ ∀ n ∈ ns, g₁.Placed ctx u n.2 := by
  have hmap : Yields ctx.forcing g s (names.mapM fun name => return (name, ← Judging.reserve)) fun g₁ ns =>
      List.Forall₂ (fun (x : String) (n : String × Nat) => x = n.1 ∧ g₁.Placed ctx u n.2) names ns := by
    refine yields_mapM (fun x n g₁ g₂ hn hext => ⟨hn.1, hn.2.grow hext⟩) h fun x _ g₁ t _ h₁ => ?_
    exact (yields_reserve h₁ ctx.mono u ctx.scopes).bind fun g₂ t' i _ h₂ hi => yields_pure h₂ ⟨rfl, hi⟩
  refine hmap.imp fun g₁ ns _ hns => ⟨?_, fun n hn => ?_⟩
  · exact (eq_map_of_forall₂ (hns.flip.imp fun _ _ hn => hn.1)).symm
  · obtain ⟨x, -, hx⟩ := exists_of_forall₂ hns hn
    exact hx.2

theorem yields_reserveSources (h : g.Describes ctx.forcing s) (u : Place) (es : List Expr) :
    Yields ctx.forcing g s (es.mapM fun _ => Judging.reserve) fun g₁ is => ∀ i ∈ is, g₁.Placed ctx u i := by
  refine (yields_mapM (R := fun g₁ _ i => g₁.Placed ctx u i) (fun x n g₁ g₂ hn hext => hn.grow hext) h
    fun x _ g₁ t _ h₁ => yields_reserve h₁ ctx.mono u ctx.scopes).imp fun g₁ is _ his i hi => ?_
  obtain ⟨x, -, hx⟩ := exists_of_forall₂ his hi
  exact hx

/-- A definition that is put in its slot. -/
theorem waiting_of_placed (hctx : g.Surrounds ctx u) (hi : g.Placed ctx u i) {p : Pending} (hmono : p.mono = ctx.mono)
    (hcharted : g.Charted ctx.mono u p.scopes)
    (hscopes : p.scopes = ctx.scopes ∨ ∃ slots components, p.scopes = .group slots p.mono components :: ctx.scopes)
    (hexpr : ∀ e, p.value = .expr e → e.Everywhere Expr.Orderly)
    (hfield : ∀ source name, p.value = .field source name → g.Placed ctx u source) : g.Waiting i u ctx.scopes p where
  slot := hmono ▸ hi.1
  fixed v hv := hctx.fixed v (hmono ▸ hv)
  charted := by
    rw [hmono]
    exact hcharted.weaken (.refl g) (fun _ hv => hv) (List.suffix_cons _ u)
  scopes := hscopes
  expr := hexpr
  field source name hvalue := hmono ▸ (hfield source name hvalue).1

theorem yields_placeBinding (hctx : g.Surrounds ctx u) (h : g.Describes ctx.forcing s) {slots : NamedSlots}
    {components : List (Nat × Nat)} (hcharted : g.Charted ctx.mono u (.group slots ctx.mono components :: ctx.scopes))
    {sources : List Nat} (hsources : ∀ i ∈ sources, g.Placed ctx u i) (name : String) (hi : g.Placed ctx u i)
    {binding : Binding Expr} (hbinding : ∀ e, binding.expr? = some e → e.Everywhere Expr.Orderly) :
    Yields ctx.forcing g s
      (do
        let pending ← deferredBinding ctx (.group slots ctx.mono components) sources name binding
        changeSlots (·.fill i pending))
      fun _ _ => True := by
  cases binding with
  | expr e =>
    refine yields_fill h (waiting_of_placed hctx hi rfl hcharted (.inr ⟨slots, components, rfl⟩) ?_ ?_)
    · rintro _ ⟨⟩
      exact hbinding e rfl
    · rintro _ _ ⟨⟩
  | «inherit» e =>
    refine yields_fill h (waiting_of_placed hctx hi rfl hctx.charted (.inl rfl) ?_ ?_)
    · rintro _ ⟨⟩
      exact hbinding e rfl
    · rintro _ _ ⟨⟩
  | inheritFrom k =>
    simp only [deferredBinding]
    cases hsource : sources[k]? with
    | none => exact yields_throw _
    | some source =>
      refine yields_fill h (waiting_of_placed hctx hi rfl hcharted (.inr ⟨slots, components, rfl⟩) ?_ ?_)
      · rintro _ ⟨⟩
      · rintro _ _ ⟨⟩
        exact hsources source (List.mem_of_getElem? hsource)

theorem eq_of_lookup_zip {xs ys : List Nat} (hys : ys.Nodup) {i j c : Nat} (hi : (xs.zip ys).lookup i = some c)
    (hj : (xs.zip ys).lookup j = some c) : i = j := by
  obtain ⟨k, hk⟩ := List.mem_iff_getElem?.1 (mem_of_lookup hi)
  obtain ⟨l, hl⟩ := List.mem_iff_getElem?.1 (mem_of_lookup hj)
  obtain ⟨hxk, hyk⟩ := List.getElem?_zip_eq_some.1 hk
  obtain ⟨hxl, hyl⟩ := List.getElem?_zip_eq_some.1 hl
  obtain rfl := (List.getElem?_inj (List.getElem?_eq_some_iff.1 hyk).1 hys).1 (hyk.trans hyl.symm)
  exact Option.some.inj (hxk.symm.trans hxl)

theorem yields_deferGroup (hctx : g.Surrounds ctx u) (h : g.Describes ctx.forcing s)
    (hcomponents : (Dependencies.ofBindings b).components.Nodup) (hparts : ∀ p ∈ b.parts, p.Everywhere Expr.Orderly) :
    Yields ctx.forcing g s (deferGroup ctx b) fun g₁ G => g₁.Grouped ctx u b G := by
  refine (yields_record h _).bind fun g₀ s₀ _ hext₀ h₀ _ => ?_
  replace hctx := hctx.grow hext₀
  refine (yields_reserveNames h₀ u b.names).bind ?_
  rintro g₁ s₁ names hext₁ h₁ ⟨hnames, hbindings⟩
  refine (yields_reserveSources h₁ u b.sources).bind ?_
  intro g₂ s₂ sources hext₂ h₂ hsources
  have hctx₂ := hctx.grow (hext₁.trans hext₂)
  have hbindings₂ : ∀ x ∈ names, g₂.Placed ctx u x.2 := fun x hx => (hbindings x hx).grow hext₂
  have hsingle : ∀ i j c, ((names.map (·.2) ++ sources).zip (Dependencies.ofBindings b).components).lookup i = some c →
      ((names.map (·.2) ++ sources).zip (Dependencies.ofBindings b).components).lookup j = some c → i = j :=
    fun i j c hi hj => eq_of_lookup_zip hcomponents hi hj
  simp only
  generalize (names.map (·.2) ++ sources).zip (Dependencies.ofBindings b).components = components at hsingle
  have hcharted : g₂.Charted ctx.mono u (.group names ctx.mono components :: ctx.scopes) :=
    .group (fun _ hv => hv) (fun x hx => (hbindings₂ x hx).seen) hsingle hctx₂.charted
  refine (yields_forM h₂ fun x hx g₃ s₃ hext₃ h₃ => ?_).bind fun g₃ s₃ _ hext₃ h₃ _ => ?_
  · obtain ⟨e, slot⟩ := x
    obtain ⟨he, hslot⟩ := List.of_mem_zip hx
    refine yields_fill h₃
      (waiting_of_placed (hctx₂.grow hext₃) ((hsources slot hslot).grow hext₃) rfl (hcharted.grow hext₃)
        (.inr ⟨names, components, rfl⟩) (fun e' he' => ?_) (by rintro _ _ ⟨⟩))
    cases he'
    exact hparts e (by simp [Bindings.parts, he])
  · refine (yields_forM h₃ fun x hx g₄ s₄ hext₄ h₄ => ?_).bind fun g₄ s₄ _ hext₄ h₄ _ => yields_pure h₄ ?_
    · obtain ⟨⟨name, binding⟩, y, slot⟩ := x
      obtain ⟨hbinding, hslot⟩ := List.of_mem_zip hx
      have hext := hext₃.trans hext₄
      refine yields_placeBinding (hctx₂.grow hext) h₄ (hcharted.grow hext) (fun i hi => (hsources i hi).grow hext) name
        ((hbindings₂ _ hslot).grow hext) fun e he => hparts e ?_
      exact Bindings.mem_parts_of_static hbinding he
    · have hext := hext₃.trans hext₄
      exact ⟨⟨components, rfl, hcharted.grow hext⟩, hnames, fun x hx => (hbindings₂ x hx).grow hext,
        fun i hi => (hsources i hi).grow hext⟩

theorem yields_exprs (hrun : Charts run) (hctx : g.Surrounds ctx u) (h : g.Describes ctx.forcing s) {es : List Expr}
    (hes : ∀ e ∈ es, e.Everywhere Expr.Orderly) :
    Yields ctx.forcing g s (es.mapM fun e => run ctx (.expr e)) fun g₁ js =>
      List.Forall₂ (fun e j => g₁.Judged ctx u e.Sealed e.Indirect j) es js :=
  yields_mapM (fun _ _ _ _ hj hext => hj.grow hext) h fun e he _ _ hext h₁ => hrun.expr e (hes e he) (hctx.grow hext) h₁

theorem sound_of_judged {es : List Expr} {js : List Judgment}
    (h : List.Forall₂ (fun e j => g.Judged ctx u e.Sealed e.Indirect j) es js) :
    ∀ j ∈ js, g.Sound ctx.mono ctx.scopes j := by
  intro j hj
  obtain ⟨e, -, he⟩ := exists_of_forall₂ h hj
  exact he.sound

theorem yields_dynamics (hrun : Charts run) (hctx : g.Surrounds ctx u) (h : g.Describes ctx.forcing s)
    (hparts : ∀ p ∈ b.parts, p.Everywhere Expr.Orderly) :
    Yields ctx.forcing g s (dynamics run ctx b) fun g₁ js => ∀ j ∈ js, g₁.Sound ctx.mono ctx.scopes j :=
  (yields_exprs hrun hctx h fun e he => hparts e (List.mem_append_right _ he)).imp fun _ _ _ hjs => sound_of_judged hjs

/-- The computed names of a group and their values, which see its names. -/
theorem Grouped.yields_dynamics {G : Group} (hG : g.Grouped ctx u b G) (hrun : Charts run) (hctx : g.Surrounds ctx u)
    (h : g.Describes ctx.forcing s) (hparts : ∀ p ∈ b.parts, p.Everywhere Expr.Orderly) :
    Yields ctx.forcing g s (dynamics run (ctx.enter G.scope) b) fun g₁ js =>
      ∀ j ∈ js, g₁.Sound ctx.mono ctx.scopes j := by
  obtain ⟨components, hscope, hcharted⟩ := hG.scope
  rw [hscope] at hcharted ⊢
  have hinner := hctx.enter hcharted (by rintro i ⟨⟩)
  refine (Chart.yields_dynamics hrun hinner h hparts).imp fun g₁ js _ hjs j hj => ?_
  exact Sound.leave_group (hjs j hj)

theorem yields_forcePlaced (hrun : Charts run) (hctx : g.Surrounds ctx u) (h : g.Describes ctx.forcing s)
    (hi : g.Placed ctx u i) :
    Yields ctx.forcing g s (run ctx (.force i)) fun g₁ J => g₁.Done i ctx.mono u ctx.scopes J :=
  (hrun.force (fun _ => u) hi.1 (List.suffix_refl u) (List.suffix_refl _) hctx h).imp fun _ _ _ hJ =>
    (hJ.resolve_right fun hloop => hi.2 hloop.1).2

/-- The types of a group's names, each at home where its definition was closed. -/
def Bound (g : Chart) (ctx : Context) (u : Place) (n : String × Nat) (f : String × Ty) : Prop :=
  f.1 = n.1 ∧ ∃ p, g.hosts.lookup n.2 = some p ∧ p.mono = ctx.mono ∧ u <:+ p ∧ g.Owned ctx.mono p f.2

theorem yields_forceGroup (hrun : Charts run) (hctx : g.Surrounds ctx u) (h : g.Describes ctx.forcing s) {G : Group}
    (hG : g.Grouped ctx u b G) :
    Yields ctx.forcing g s (forceGroup run ctx G) fun g₁ r =>
      List.Forall₂ (g₁.Bound ctx u) G.names r.1 ∧ ∀ j ∈ r.2, g₁.Sound ctx.mono ctx.scopes j := by
  have hnames : Yields ctx.forcing g s (G.names.mapM fun n => return (n.1, ← run ctx (.force n.2))) fun g₁ bs =>
      List.Forall₂ (fun n b => b.1 = n.1 ∧ g₁.Done n.2 ctx.mono u ctx.scopes b.2) G.names bs := by
    refine yields_mapM (fun _ _ _ _ hb hext => ⟨hb.1, hb.2.grow hext⟩) h fun n hn g₁ t hext h₁ => ?_
    refine (yields_forcePlaced hrun (hctx.grow hext) h₁ ((hG.bindings n hn).grow hext)).bind fun g₂ t' J _ h₂ hJ => ?_
    exact yields_pure h₂ ⟨rfl, hJ⟩
  refine hnames.bind fun g₁ s₁ bs hext₁ h₁ hbs => ?_
  have hsources : Yields ctx.forcing g₁ s₁ (G.sources.mapM fun slot => run ctx (.force slot)) fun g₂ js =>
      List.Forall₂ (fun i j => g₂.Done i ctx.mono u ctx.scopes j) G.sources js := by
    refine yields_mapM (fun _ _ _ _ hj hext => hj.grow hext) h₁ fun i hi g₂ t hext h₂ => ?_
    exact yields_forcePlaced hrun (hctx.grow (hext₁.trans hext)) h₂ ((hG.sources i hi).grow (hext₁.trans hext))
  refine hsources.bind fun g₂ s₂ js hext₂ h₂ hjs => yields_pure h₂ ⟨?_, fun j hj => ?_⟩
  · show List.Forall₂ _ G.names (bs.map fun b => (b.1, b.2.ty))
    rw [List.forall₂_map_right_iff]
    refine hbs.imp fun n b hb => ⟨hb.1, ?_⟩
    obtain ⟨p, hhost, -, hmono, houter, howned⟩ := (hb.2.grow hext₂).host
    exact ⟨p, hhost, hmono, houter, howned⟩
  · rcases List.mem_append.1 hj with hj | hj
    · obtain ⟨b, hb, rfl⟩ := List.mem_map.1 hj
      obtain ⟨n, -, hn⟩ := exists_of_forall₂ hbs hb
      exact hn.2.sound.grow hext₂
    · obtain ⟨i, -, hi⟩ := exists_of_forall₂ hjs hj
      exact hi.sound

theorem lookup_of_mem {names : NamedSlots} (hnodup : (names.map (·.1)).Nodup) {x : String} (hx : (x, i) ∈ names) :
    names.lookup x = some i := by
  induction names with
  | nil => cases hx
  | cons n names ih =>
    obtain ⟨y, k⟩ := n
    rw [List.map_cons, List.nodup_cons] at hnodup
    rcases List.mem_cons.1 hx with heq | hmem
    · cases heq
      exact List.lookup_cons_self
    · have hne : x ≠ y := fun heq => hnodup.1 (List.mem_map.2 ⟨(x, i), hmem, heq⟩)
      rw [List.lookup_cons, beq_eq_false_iff_ne.2 hne]
      exact ih hnodup.2 hmem

theorem yields_letIn (hrun : Charts run) (hctx : g.Surrounds ctx u) (h : g.Describes ctx.forcing s)
    (hgroup : b.names.Nodup ∧ (Dependencies.ofBindings b).components.Nodup)
    (hparts : ∀ p ∈ b.parts, p.Everywhere Expr.Orderly) {body : Expr} (hbody : body.Everywhere Expr.Orderly) :
    Yields ctx.forcing g s (letIn run ctx b body) fun g₁ J => g₁.Judged ctx u body.Sealed body.Indirect J := by
  refine (yields_deferGroup hctx h hgroup.2 hparts).bind fun g₁ s₁ G hext₁ h₁ hG => ?_
  have hctx₁ := hctx.grow hext₁
  refine (hG.yields_dynamics hrun hctx₁ h₁ hparts).bind fun g₂ s₂ extra hext₂ h₂ hextra => ?_
  have hctx₂ := hctx₁.grow hext₂
  have hinner : g₂.Surrounds (ctx.enter (.letBody G.names ctx.mono)) u := by
    refine hctx₂.enter (.letBody (fun _ hv => hv) (fun x hx => ((hG.bindings x hx).grow hext₂).seen) hctx₂.charted) ?_
    intro i hi
    rw [bodySlots, List.flatMap_cons, List.flatMap_nil, List.append_nil] at hi
    obtain ⟨x, hx, rfl⟩ := List.mem_map.1 hi
    exact (hG.bindings x hx).2
  refine (hrun.expr body hbody hinner h₂).bind fun g₃ s₃ J hext₃ h₃ hJ => ?_
  have hext₁₃ := hext₂.trans hext₃
  refine (yields_forceGroup hrun (hctx₁.grow hext₁₃) h₃ (hG.grow hext₁₃)).bind ?_
  rintro g₄ s₄ ⟨bound, js⟩ hext₄ h₄ ⟨hbound, hjs⟩
  have hJ₄ := hJ.grow hext₄
  have hnames : bound.map (·.1) = G.names.map (·.1) := by
    rw [← List.forall₂_eq_eq_eq, List.forall₂_map_left_iff, List.forall₂_map_right_iff]
    exact hbound.flip.imp fun _ _ hb => hb.1
  refine yields_pure h₄ ⟨sound_letIn (fun j hj => ?_) hJ₄.sound hnames ?_, hJ₄.owned, hJ₄.made, hJ₄.notRecord⟩
  · rcases List.mem_append.1 hj with hj | hj
    · exact hjs j hj
    · exact (hextra j hj).grow (hext₃.trans hext₄)
  · intro f hf i hi p hp
    -- names are bound once, so the slot that is looked up is the one of the definition
    obtain ⟨n, hn, hfn, q, hq, hmono, -, howned⟩ := exists_of_forall₂ hbound hf
    have hlookup := lookup_of_mem (hG.names ▸ hgroup.1) hn
    rw [← hfn, hi] at hlookup
    cases hlookup
    rw [hp] at hq
    cases hq
    exact ⟨hmono, howned.within⟩

theorem yields_recSet (hrun : Charts run) (hctx : g.Surrounds ctx u) (h : g.Describes ctx.forcing s)
    (hcomponents : (Dependencies.ofBindings b).components.Nodup) (hparts : ∀ p ∈ b.parts, p.Everywhere Expr.Orderly) :
    Yields ctx.forcing g s (recSet run ctx b) fun g₁ J => g₁.Judged ctx u False False J := by
  refine (yields_deferGroup hctx h hcomponents hparts).bind fun g₁ s₁ G hext₁ h₁ hG => ?_
  have hctx₁ := hctx.grow hext₁
  refine (hG.yields_dynamics hrun hctx₁ h₁ hparts).bind fun g₂ s₂ extra hext₂ h₂ hextra => ?_
  refine (yields_forceGroup hrun (hctx₁.grow hext₂) h₂ (hG.grow hext₂)).bind ?_
  rintro g₃ s₃ ⟨bound, js⟩ hext₃ h₃ ⟨hbound, hjs⟩
  refine yields_pure h₃ ⟨sound_merged (fun j hj => ?_) _, owned_ofFields _ fun f hf => ?_, False.elim, False.elim⟩
  · rcases List.mem_append.1 hj with hj | hj
    · exact hjs j hj
    · exact (hextra j hj).grow hext₃
  · obtain ⟨n, -, -, p, -, -, hu, howned⟩ := exists_of_forall₂ hbound hf
    exact howned.around hu

/-- A field of a set: its own expression, or taken from a source. -/
theorem yields_field (hrun : Charts run) (hctx : g.Surrounds ctx u) (h : g.Describes ctx.forcing s)
    (hparts : ∀ p ∈ b.parts, p.Everywhere Expr.Orderly) {js : List Judgment}
    (hjs : List.Forall₂ (fun e j => g.Judged ctx u e.Sealed e.Indirect j) b.sources js) {f : String × Binding Expr}
    (hf : f ∈ b.statics) :
    Yields ctx.forcing g s
      (do
        let j ← match f.2 with
          | .expr e | .inherit e => run ctx (.expr e)
          | .inheritFrom i =>
            match js[i]? with
            | some source => fieldOf source.ty f.1
            | none => unknown
        return (f.1, j))
      fun g₁ r => g₁.Judged ctx u (∀ p ∈ (Form.set false b).values, p.Sealed) False r.2 := by
  obtain ⟨name, binding⟩ := f
  cases binding with
  | expr e | «inherit» e =>
    have hmem : e ∈ b.statics.filterMap fun s => s.2.expr? := List.mem_filterMap.2 ⟨_, hf, rfl⟩
    have he : e.Everywhere Expr.Orderly := hparts e (List.mem_append_left _ (List.mem_append_left _ hmem))
    refine (hrun.expr e he hctx h).bind fun g₁ s₁ J _ h₁ hJ => yields_pure h₁ (hJ.imp ?_ False.elim)
    exact fun hsealed => hsealed e (List.mem_append_left _ hmem)
  | inheritFrom i =>
    simp only
    cases hsource : js[i]? with
    | none =>
      refine (yields_unknown h ctx.mono ctx.scopes u).bind fun g₁ s₁ J _ h₁ hJ => ?_
      exact yields_pure h₁ (judged_fresh hJ.1 hJ.2)
    | some source =>
      obtain ⟨e, he, hsource⟩ := exists_of_forall₂ hjs (List.mem_of_getElem? hsource)
      refine (yields_fieldOf hctx h hsource.owned name).bind fun g₁ s₁ J hext h₁ hJ => yields_pure h₁ ?_
      rcases hJ.2 with hfresh | hpart
      · exact judged_fresh hJ.1 hfresh
      · refine ⟨hJ.1, (hsource.owned.grow hext).part hpart, fun hsealed => ?_, False.elim⟩
        exact ((hsource.made (hsealed e (List.mem_append_right _ he))).grow hext).part hpart

theorem yields_plainSet (hrun : Charts run) (hctx : g.Surrounds ctx u) (h : g.Describes ctx.forcing s)
    (hparts : ∀ p ∈ b.parts, p.Everywhere Expr.Orderly) :
    Yields ctx.forcing g s (plainSet run ctx b) fun g₁ J =>
      g₁.Judged ctx u (∀ p ∈ (Form.set false b).values, p.Sealed) False J := by
  refine (yields_exprs hrun hctx h fun e he => hparts e (by simp [Bindings.parts, he])).bind ?_
  intro g₁ s₁ js hext₁ h₁ hjs
  refine Yields.bind (P := fun g₂ fields =>
    List.Forall₂ (fun _ f => g₂.Judged ctx u (∀ p ∈ (Form.set false b).values, p.Sealed) False f.2) b.statics fields)
    (yields_mapM (fun _ _ _ _ hf hext => hf.grow hext) h₁ fun f hf g₂ t hext h₂ => ?_)
    fun g₂ s₂ fields hext₂ h₂ hfields => ?_
  · exact yields_field hrun (hctx.grow (hext₁.trans hext)) h₂ hparts (hjs.imp fun _ _ hj => hj.grow hext) hf
  · refine (yields_dynamics hrun (hctx.grow (hext₁.trans hext₂)) h₂ hparts).bind fun g₃ s₃ extra hext₃ h₃ hextra => ?_
    have hfield : ∀ f ∈ fields, g₃.Judged ctx u (∀ p ∈ (Form.set false b).values, p.Sealed) False f.2 := by
      intro f hf
      obtain ⟨x, -, hx⟩ := exists_of_forall₂ hfields hf
      exact hx.grow hext₃
    refine yields_pure h₃ ⟨sound_merged (fun j hj => ?_) _, owned_ofFields _ fun f hf => ?_,
      fun hsealed => made_ofFields _ fun f hf => ?_, False.elim⟩
    · rcases List.mem_append.1 hj with hj | hj
      · obtain ⟨f, hf, rfl⟩ := List.mem_map.1 hj
        exact (hfield f hf).sound
      · rcases List.mem_append.1 hj with hj | hj
        · exact (sound_of_judged hjs j hj).grow (hext₂.trans hext₃)
        · exact hextra j hj
    · obtain ⟨x, hx, rfl⟩ := List.mem_map.1 hf
      exact (hfield x hx).owned
    · obtain ⟨x, hx, rfl⟩ := List.mem_map.1 hf
      exact (hfield x hx).made hsealed

end Groups

/-! ## Functions and attributes -/

section Forms

theorem mem_fix {vars : List Nat} {v : Nat} : v ∈ (ctx.fix vars).mono ↔ v ∈ vars ∨ v ∈ ctx.mono :=
  VarSet.mem_foldl_insert.trans or_comm

/-- Parameters, whose variables were issued at the place, are fixed in the body. -/
theorem Surrounds.params (hctx : g.Surrounds ctx u) {vars : List Nat} (hvars : ∀ v ∈ vars, g.Issued v u)
    (names : List String) : g.Surrounds ((ctx.fix vars).enter (.params names)) u where
  fixed v hv := by
    rcases mem_fix.1 hv with hv | hv
    · exact (hvars v hv).fixed
    · exact hctx.fixed v hv
  frames := hctx.frames
  charted := .params names
    (hctx.charted.weaken (.refl g) (fun v hv => mem_fix.2 (.inr hv)) (List.suffix_refl u))
  bodies := hctx.bodies

theorem yields_lambda_name (hrun : Charts run) (hctx : g.Surrounds ctx u) (h : g.Describes ctx.forcing s) (x : String)
    {body : Expr} (hbody : body.Everywhere Expr.Orderly) :
    Yields ctx.forcing g s (lambda run ctx body (.name x)) fun g₁ J => g₁.Judged ctx u body.Sealed I J := by
  refine (yields_fresh h (fun _ => u) ∅).bind fun g₁ s₁ v hext₁ h₁ hv => ?_
  have hinner : g₁.Surrounds ((ctx.fix [v]).enter (.params [x])) u :=
    (hctx.grow hext₁).params (fun w hw => List.mem_singleton.1 hw ▸ ⟨∅, hv⟩) [x]
  refine (hrun.expr body hbody hinner h₁).bind fun g₂ s₂ J hext₂ h₂ hJ => yields_pure h₂ ?_
  have hparam : g₂.Made u (.var v) := fun w hw => Ty.mem_free_var.1 hw ▸ ⟨∅, hext₂.var hv⟩
  refine ⟨sound_lambda hJ.sound (fun w hw => mem_fix.2 (.inr hw)) (mem_fix.2 (.inl (List.mem_singleton.2 rfl))),
    owned_fn hparam hJ.owned, fun hsealed => made_fn hparam (hJ.made hsealed), ?_⟩
  rintro - _ _ ⟨⟩

/-- A part that may be missing. -/
theorem yields_expr? (hrun : Charts run) (hctx : g.Surrounds ctx u) (h : g.Describes ctx.forcing s) {d : Option Expr}
    (hd : ∀ e ∈ d, e.Everywhere Expr.Orderly) :
    Yields ctx.forcing g s (d.mapM fun e => run ctx (.expr e)) fun g₁ r =>
      ∀ j, r = some j → ∃ e, d = some e ∧ g₁.Judged ctx u e.Sealed e.Indirect j := by
  cases d with
  | none => exact yields_pure h (by rintro j ⟨⟩)
  | some e =>
    rw [Option.mapM_some, map_eq_pure_bind]
    refine (hrun.expr e (hd e rfl) hctx h).bind fun g₁ s₁ J _ h₁ hJ => yields_pure h₁ ?_
    rintro _ ⟨⟩
    exact ⟨e, rfl, hJ⟩

theorem yields_selectStep (hrun : Charts run) (hctx : g.Surrounds ctx u) (h : g.Describes ctx.forcing s)
    (current : Option Ty) {e : Expr} (he : e.Everywhere Expr.Orderly) :
    Yields ctx.forcing g s (selectStep run ctx current e) fun g₁ r =>
      (∀ t, r.1 = some t → ∃ whole, current = some whole ∧ t.PartOf whole) ∧
        ∀ j ∈ r.2, g₁.Sound ctx.mono ctx.scopes j := by
  unfold selectStep
  split
  · next name fields isOpen _ =>
    refine yields_pure h ⟨fun t ht => ⟨_, rfl, ?_⟩, by rintro j ⟨⟩⟩
    exact Ty.partOf_field (mem_of_findKey ht) isOpen
  · exact yields_pure h ⟨by rintro t ⟨⟩, by rintro j ⟨⟩⟩
  · refine (hrun.expr e he hctx h).bind fun g₁ s₁ J _ h₁ hJ => yields_pure h₁ ⟨by rintro t ⟨⟩, fun j hj => ?_⟩
    rw [List.mem_singleton.1 hj]
    exact hJ.sound

theorem yields_selectPath (hrun : Charts run) (hctx : g.Surrounds ctx u) (h : g.Describes ctx.forcing s)
    (current : Option Ty) {path : List Expr} (hpath : ∀ e ∈ path, e.Everywhere Expr.Orderly) :
    Yields ctx.forcing g s (selectPath run ctx current path) fun g₁ r =>
      (∀ t, r.1 = some t → ∃ whole, current = some whole ∧ t.PartOf whole) ∧
        ∀ j ∈ r.2, g₁.Sound ctx.mono ctx.scopes j := by
  induction path generalizing current g s with
  | nil => exact yields_pure h ⟨fun t ht => ⟨t, ht, .refl t⟩, by rintro j ⟨⟩⟩
  | cons e path ih =>
    refine (yields_selectStep hrun hctx h current (hpath e List.mem_cons_self)).bind ?_
    rintro g₁ s₁ ⟨next, js⟩ hext₁ h₁ ⟨hnext, hjs⟩
    refine (ih (hctx.grow hext₁) h₁ next fun e he => hpath e (List.mem_cons_of_mem _ he)).bind ?_
    rintro g₂ s₂ ⟨last, more⟩ hext₂ h₂ ⟨hlast, hmore⟩
    refine yields_pure h₂ ⟨fun t ht => ?_, fun j hj => ?_⟩
    · obtain ⟨part, hpart, ht⟩ := hlast t ht
      obtain ⟨whole, hwhole, hpart⟩ := hnext part hpart
      exact ⟨whole, hwhole, ht.trans hpart⟩
    · rcases List.mem_append.1 hj with hj | hj
      · exact (hjs j hj).grow hext₂
      · exact hmore j hj

theorem yields_select (hrun : Charts run) (hctx : g.Surrounds ctx u) (h : g.Describes ctx.forcing s) {subject : Expr}
    {path : List Expr} {d : Option Expr} (hsubject : subject.Everywhere Expr.Orderly)
    (hpath : ∀ e ∈ path, e.Everywhere Expr.Orderly) (hd : ∀ e ∈ d, e.Everywhere Expr.Orderly) :
    Yields ctx.forcing g s (select run ctx subject path d) fun g₁ J =>
      g₁.Judged ctx u (∀ p ∈ (Form.select subject path d).values, p.Sealed)
        (∀ p ∈ (Form.select subject path d).results, p.Indirect) J := by
  refine (hrun.expr subject hsubject hctx h).bind fun g₁ s₁ K hext₁ h₁ hK => ?_
  have hctx₁ := hctx.grow hext₁
  refine (yields_recordOf h₁ hK.owned).bind fun g₂ s₂ record hext₂ h₂ hrecord => ?_
  have hctx₂ := hctx₁.grow hext₂
  refine (yields_selectPath hrun hctx₂ h₂ (record.map fun r => .record r.fields false) hpath).bind ?_
  rintro g₃ s₃ ⟨found, steps⟩ hext₃ h₃ ⟨hfound, hsteps⟩
  have hctx₃ := hctx₂.grow hext₃
  refine (yields_expr? hrun hctx₃ h₃ hd).bind fun g₄ s₄ D hext₄ h₄ hD => ?_
  have hctx₄ := hctx₃.grow hext₄
  have hK₄ := hK.grow (hext₂.trans (hext₃.trans hext₄))
  -- whatever the result is, the parts are sound
  have hend : ∀ {S I : Prop} {g₅ : Chart} {s₅ : State} {R : Judgment}, g₄.Extends g₅ → g₅.Describes ctx.forcing s₅ →
      g₅.Judged ctx u S I R →
      Yields ctx.forcing g₅ s₅ (pure (.merged (K :: steps ++ D.toList ++ [R]) R.ty)) fun g₆ J =>
        g₆.Judged ctx u S I J := by
    intro S I g₅ s₅ R hext₅ h₅ hR
    refine yields_pure h₅ ⟨sound_merged (fun j hj => ?_) _, hR.owned, hR.made, hR.notRecord⟩
    simp only [List.cons_append, List.mem_cons, List.mem_append, Option.mem_toList, List.not_mem_nil, or_false] at hj
    rcases hj with rfl | (hj | hj) | rfl
    · exact hK₄.sound.grow hext₅
    · exact (hsteps j hj).grow (hext₄.trans hext₅)
    · obtain ⟨e, -, hj⟩ := hD j hj
      exact hj.sound.grow hext₅
    · exact hR.sound
  cases found with
  | some t =>
    obtain ⟨whole, hwhole, hpart⟩ := hfound t rfl
    obtain ⟨r, rfl, rfl⟩ := Option.map_eq_some_iff.1 hwhole
    rcases hrecord r rfl with ⟨hhere, hrecord, fields, isOpen, hty⟩ | htaken
    · refine (yields_instanceOf hctx₄ h₄ (.inl hhere)).bind fun g₅ s₅ R hext₅ h₅ hR => hend hext₅ h₅ ?_
      rcases hR.2 with hfresh | ⟨-, hRty⟩
      · exact judged_fresh hR.1 hfresh
      · have hK₅ := hK₄.grow hext₅
        have hselected : R.ty.PartOf K.ty := hRty ▸ hpart.trans hrecord
        refine ⟨hR.1, hK₅.owned.part hselected, fun hsealed => ?_, fun hindirect => ?_⟩
        · exact (hK₅.made (hsealed subject List.mem_cons_self)).part hselected
        · exact (hK₅.notRecord (hindirect subject List.mem_cons_self) fields isOpen hty).elim
    · have htaken₄ := (htaken.grow (hext₃.trans hext₄)).part hpart
      refine (yields_instanceOf hctx₄ h₄ (.inr htaken₄)).bind fun g₅ s₅ R hext₅ h₅ hR => hend hext₅ h₅ ?_
      refine judged_fresh hR.1 (hR.2.resolve_right fun hhere => ?_)
      have hnot := hhere.1 ▸ htaken₄
      exact hnot
  | none =>
    cases D with
    | none => exact (yields_unknown h₄ _ _ u).bind fun g₅ s₅ R hext₅ h₅ hR => hend hext₅ h₅ (judged_fresh hR.1 hR.2)
    | some j =>
      obtain ⟨e, rfl, hj⟩ := hD j rfl
      refine hend (.refl g₄) h₄ ⟨sound_ofTy _ _ _ _, hj.owned, fun hsealed => hj.made (hsealed e ?_),
        fun hindirect => hj.notRecord (hindirect e ?_)⟩
      · exact List.mem_cons_of_mem _ (by simp)
      · exact List.mem_cons_of_mem _ (by simp)

theorem mem_patternFields {fs : List (String × Option Expr)} {vars : List Nat} {ds : List (Option Judgment)}
    {f : Judgment.PatternField} (hf : f ∈ patternFields fs vars ds) : f.var ∈ vars ∧ f.dflt ∈ ds := by
  obtain ⟨⟨x, v, d⟩, hmem, rfl⟩ := List.mem_map.1 hf
  exact List.of_mem_zip (List.of_mem_zip hmem).2

theorem yields_defaults (hrun : Charts run) (hctx : g.Surrounds ctx u) (h : g.Describes ctx.forcing s)
    {fs : List (String × Option Expr)} (hfs : ∀ e ∈ fs.filterMap (·.2), e.Everywhere Expr.Orderly) :
    Yields ctx.forcing g s (fs.mapM fun (_, dflt) => dflt.mapM fun e => run ctx (.expr e)) fun g₁ ds =>
      List.Forall₂ (fun f d => ∀ j, d = some j → ∃ e, f.2 = some e ∧ g₁.Judged ctx u e.Sealed e.Indirect j) fs ds := by
  refine yields_mapM (fun f d g₁ g₂ hd hext j hj => ?_) h fun f hf g₁ t hext h₁ => ?_
  · obtain ⟨e, he, hjudged⟩ := hd j hj
    exact ⟨e, he, hjudged.grow hext⟩
  · exact yields_expr? hrun (hctx.grow hext) h₁ fun e he => hfs e (List.mem_filterMap.2 ⟨f, hf, he⟩)

theorem yields_lambda_fields (hrun : Charts run) (hctx : g.Surrounds ctx u) (h : g.Describes ctx.forcing s)
    {fs : List (String × Option Expr)} (ellipsis : Bool) (whole : Option String)
    (hfs : ∀ e ∈ fs.filterMap (·.2), e.Everywhere Expr.Orderly) (hsealed : ∀ e ∈ fs.filterMap (·.2), e.Sealed)
    {body : Expr} (hbody : body.Everywhere Expr.Orderly) :
    Yields ctx.forcing g s (lambda run ctx body (.fields fs ellipsis whole)) fun g₁ J =>
      g₁.Judged ctx u body.Sealed I J := by
  have hfresh : Yields ctx.forcing g s (fs.mapM fun _ => fresh) fun g₁ vars =>
      List.Forall₂ (fun _ v => g₁.Issued v u) fs vars :=
    yields_mapM (fun _ _ _ _ hv hext => hv.grow hext) h fun _ _ g₁ t _ h₁ =>
      (yields_fresh h₁ (fun _ => u) ∅).imp fun _ _ _ hv => ⟨∅, hv⟩
  refine hfresh.bind fun g₁ s₁ vars hext₁ h₁ hvars => ?_
  have hissued : ∀ v ∈ vars, g₁.Issued v u := by
    intro v hv
    obtain ⟨-, -, hv⟩ := exists_of_forall₂ hvars hv
    exact hv
  have hinner : g₁.Surrounds ((ctx.fix vars).enter (.params (fs.map (·.1) ++ whole.toList))) u :=
    (hctx.grow hext₁).params hissued _
  refine (yields_defaults hrun hinner h₁ hfs).bind fun g₂ s₂ ds hext₂ h₂ hds => ?_
  refine (hrun.expr body hbody (hinner.grow hext₂) h₂).bind fun g₃ s₃ J hext₃ h₃ hJ => yields_pure h₃ ?_
  have hnames := names_patternFields hvars.length_eq.symm hds.length_eq.symm
  have hvar : ∀ f ∈ patternFields fs vars ds, g₃.Issued f.var u := fun f hf =>
    (hissued f.var (mem_patternFields hf).1).grow (hext₂.trans hext₃)
  have hrecord : g₃.Made u (.ofFields ((patternFields fs vars ds).map fun f => (f.name, .var f.var)) ellipsis) := by
    refine made_ofFields _ fun f hf v hv => ?_
    obtain ⟨f', hf', rfl⟩ := List.mem_map.1 hf
    exact Ty.mem_free_var.1 hv ▸ hvar f' hf'
  refine ⟨sound_patternLambda ellipsis (hnames ▸ hJ.sound) (fun w hw => mem_fix.2 (.inr hw))
      (fun f hf => ⟨?_, hvar f hf⟩) fun f hf d hd => ?_,
    owned_fn hrecord hJ.owned, fun hsealed => made_fn hrecord (hJ.made hsealed), by rintro - _ _ ⟨⟩⟩
  · exact mem_fix.2 (.inl (mem_patternFields hf).1)
  · obtain ⟨x, hx, hxd⟩ := exists_of_forall₂ hds (mem_patternFields hf).2
    obtain ⟨e, he, hjudged⟩ := hxd d hd
    have hjudged₃ := hjudged.grow hext₃
    exact ⟨hnames ▸ hjudged₃.sound, hjudged₃.made (hsealed e (List.mem_filterMap.2 ⟨x, hx, he⟩))⟩

theorem yields_hasAttr (hrun : Charts run) (hctx : g.Surrounds ctx u) (h : g.Describes ctx.forcing s) {subject : Expr}
    {path : List Expr} (hsubject : subject.Everywhere Expr.Orderly) (hpath : ∀ e ∈ path, e.Everywhere Expr.Orderly) :
    Yields ctx.forcing g s (hasAttr run ctx subject path) fun g₁ J => g₁.Judged ctx u S I J := by
  refine (hrun.expr subject hsubject hctx h).bind fun g₁ s₁ K hext₁ h₁ hK => ?_
  refine (yields_exprs hrun (hctx.grow hext₁) h₁ fun e he => hpath e (List.mem_of_mem_filter he)).bind ?_
  intro g₂ s₂ js hext₂ h₂ hjs
  refine yields_pure h₂ (judged_prim (p := .bool) (sound_merged (fun j hj => ?_) _) rfl)
  rcases List.mem_cons.1 hj with rfl | hj
  · exact hK.sound.grow hext₂
  · exact sound_of_judged hjs j hj

theorem yields_interpolation (hrun : Charts run) (hctx : g.Surrounds ctx u) (h : g.Describes ctx.forcing s)
    {ps : List (Piece Expr)} (hps : ∀ e ∈ ps.filterMap Piece.interp?, e.Everywhere Expr.Orderly) (p : Prim) :
    Yields ctx.forcing g s (interpolation run ctx ps (.prim p)) fun g₁ J => g₁.Judged ctx u S I J := by
  refine (yields_exprs hrun hctx h hps).bind fun g₁ s₁ js _ h₁ hjs => yields_pure h₁ ?_
  exact judged_prim (sound_merged (sound_of_judged hjs) _) rfl

end Forms

/-! ## The walk -/

section Walk

theorem free_unarySignature (op : UnaryOp) (v : Nat) : v ∉ op.signature.free := by
  cases op <;> simp [UnaryOp.signature, Ty.mem_free_overloads]

theorem free_binarySignature {op : BinOp} {t : Ty} (h : op.signature = some t) (v : Nat) : v ∉ t.free := by
  cases op <;> simp only [BinOp.signature, Option.some.injEq, reduceCtorEq] at h <;> subst h <;>
    simp [Ty.mem_free_overloads, Ty.binary, arithmeticSignatures, comparisonSignatures, numberPairs]

theorem literal_ty_prim (l : Literal) : ∃ p, l.ty = .prim p := by
  cases l <;> exact ⟨_, rfl⟩

theorem yields_expression (henv : env.Closed) (hrun : Charts run) (hctx : g.Surrounds ctx u)
    (h : g.Describes ctx.forcing s) {e : Expr} (he : e.Everywhere Expr.Orderly) :
    Yields ctx.forcing g s (expression env run ctx e.form) fun g₁ J => g₁.Judged ctx u e.Sealed e.Indirect J := by
  obtain ⟨id, span, f⟩ := e
  have horderly := he.self
  have hparts : ∀ p ∈ f.parts, p.Everywhere Expr.Orderly := fun p hp => he.part hp
  have hexpr : ∀ p ∈ f.parts, ∀ {g₁ : Chart} {t : State}, g.Extends g₁ → g₁.Describes ctx.forcing t →
      Yields ctx.forcing g₁ t (run ctx (.expr p)) fun g₂ J => g₂.Judged ctx u p.Sealed p.Indirect J :=
    fun p hp g₁ t hext h₁ => hrun.expr p (hparts p hp) (hctx.grow hext) h₁
  have hequated : ∀ p ∈ f.equated, p.Sealed := horderly.equated
  cases f with
  | missing => exact (yields_unknown h _ _ u).imp fun _ _ _ hJ => judged_fresh hJ.1 hJ.2
  | literal l =>
    obtain ⟨p, hp⟩ := literal_ty_prim l
    exact yields_pure h (judged_prim (sound_ofTy _ _ _ _) hp)
  | ref x => exact yields_reference henv hrun hctx h x
  | apply fn arg =>
    refine (hexpr fn (by simp [Form.parts]) (.refl g) h).bind fun g₁ s₁ K hext₁ h₁ hK => ?_
    refine (hexpr arg (by simp [Form.parts]) hext₁ h₁).bind fun g₂ s₂ A hext₂ h₂ hA => ?_
    refine (yields_freshTy h₂ u).bind fun g₃ s₃ t hext₃ h₃ ht => yields_pure h₃ ?_
    have hK₃ := hK.grow (hext₂.trans hext₃)
    have hA₃ := hA.grow hext₃
    refine judged_fresh (Sound.require (sound_merged ?_ _) ?_) ht
    · simp [hK₃.sound, hA₃.sound]
    · simp only [List.mem_singleton, forall_eq]
      exact settled_eq (hK₃.made (hequated fn (by simp [Form.equated]))).fixed
        (made_fn (hA₃.made (hequated arg (by simp [Form.equated]))) ht.made).fixed
  | lambda p body =>
    have hbody := hparts body (by simp [Form.parts])
    cases p with
    | name x =>
      refine (yields_lambda_name hrun hctx h x hbody).imp fun _ _ _ hJ => hJ.imp ?_ fun h => h
      exact fun hsealed => hsealed.part (by simp [Expr.form, Form.values])
    | fields fs ellipsis whole =>
      refine (yields_lambda_fields hrun hctx h ellipsis whole (fun e he => hparts e (List.mem_append_left _ he))
        hequated hbody).imp fun _ _ _ hJ => hJ.imp ?_ fun h => h
      exact fun hsealed => hsealed.part (by simp [Expr.form, Form.values])
  | letIn b body =>
    refine (yields_letIn hrun hctx h ⟨horderly.bindsOnce b rfl, horderly.components b rfl⟩
      (fun p hp => hparts p (List.mem_append_left _ hp)) (hparts body (by simp [Form.parts]))).imp
      fun _ _ _ hJ => hJ.imp ?_ ?_
    · exact fun hsealed => hsealed.part (by simp [Expr.form, Form.values])
    · exact fun hindirect => hindirect.part (by simp [Expr.form, Form.results])
  | set isRec b =>
    cases isRec with
    | true =>
      refine (yields_recSet hrun hctx h (horderly.components b rfl) hparts).imp fun _ _ _ hJ => hJ.imp ?_ ?_
      · exact fun hsealed => absurd hsealed.here (by simp [Expr.form, Form.isRecSet])
      · exact fun hindirect => absurd hindirect.here (by simp [Expr.form, Form.isSet])
    | false =>
      refine (yields_plainSet hrun hctx h hparts).imp fun _ _ _ hJ => hJ.imp ?_ ?_
      · exact fun hsealed p hp => hsealed.part hp
      · exact fun hindirect => absurd hindirect.here (by simp [Expr.form, Form.isSet])
  | list es =>
    refine (yields_exprs hrun hctx h hparts).bind fun g₁ s₁ js _ h₁ hjs => yields_pure h₁ ?_
    refine ⟨sound_merged (sound_of_judged hjs) _, owned_list fun t ht => ?_,
      fun hsealed => made_list fun t ht => ?_, ?_⟩
    · obtain ⟨j, hj, rfl⟩ := List.mem_map.1 ht
      obtain ⟨e, -, hej⟩ := exists_of_forall₂ hjs hj
      exact hej.owned
    · obtain ⟨j, hj, rfl⟩ := List.mem_map.1 ht
      obtain ⟨e, he, hej⟩ := exists_of_forall₂ hjs hj
      exact hej.made (hsealed.part he)
    · rintro - _ _ ⟨⟩
  | unary op operand =>
    refine (hexpr operand (by simp [Form.parts]) (.refl g) h).bind fun g₁ s₁ K hext₁ h₁ hK => ?_
    refine (yields_freshTy h₁ u).bind fun g₂ s₂ t hext₂ h₂ ht => yields_pure h₂ ?_
    have hK₂ := hK.grow hext₂
    refine judged_fresh (Sound.require (sound_merged ?_ _) ?_) ht
    · simp [hK₂.sound]
    · simp only [List.mem_singleton, forall_eq]
      exact settled_eq (made_fn (hK₂.made (hequated operand (by simp [Form.equated]))) ht.made).fixed
        fun v hv => (free_unarySignature op v hv).elim
  | binary op l r =>
    refine (hexpr l (by simp [Form.parts]) (.refl g) h).bind fun g₁ s₁ K hext₁ h₁ hK => ?_
    refine (hexpr r (by simp [Form.parts]) hext₁ h₁).bind fun g₂ s₂ A hext₂ h₂ hA => ?_
    refine (yields_freshTy h₂ u).bind fun g₃ s₃ t hext₃ h₃ ht => yields_pure h₃ ?_
    have hK₃ := hK.grow (hext₂.trans hext₃)
    have hA₃ := hA.grow hext₃
    have hsound : ∀ t' : Ty, g₃.Sound ctx.mono ctx.scopes (.merged [K, A] t') :=
      sound_merged (by simp [hK₃.sound, hA₃.sound])
    unfold Judgment.binary
    cases hop : op.signature with
    | none => exact judged_prim (p := .bool) (hsound _) rfl
    | some sig =>
      have hoperands : (Form.binary op l r).equated = [l, r] := by simp [Form.equated, hop]
      refine judged_fresh ((hsound t).require ?_) ht
      simp only [List.mem_singleton, forall_eq]
      exact settled_eq (made_fn (hK₃.made (hequated l (by simp [hoperands])))
        (made_fn (hA₃.made (hequated r (by simp [hoperands]))) ht.made)).fixed
        fun v hv => (free_binarySignature hop v hv).elim
  | select subject path d =>
    refine (yields_select hrun hctx h (hparts subject (by simp [Form.parts]))
      (fun p hp => hparts p (by simp [Form.parts, hp])) fun p hp => ?_).imp fun _ _ _ hJ => hJ.imp ?_ ?_
    · rw [Option.mem_def] at hp
      exact hparts p (by simp [Form.parts, hp])
    · exact fun hsealed p hp => hsealed.part hp
    · exact fun hindirect p hp => hindirect.part hp
  | hasAttr subject path =>
    exact yields_hasAttr hrun hctx h (hparts subject (by simp [Form.parts])) fun p hp =>
      hparts p (by simp [Form.parts, hp])
  | ifElse c y n =>
    refine (hexpr c (by simp [Form.parts]) (.refl g) h).bind fun g₁ s₁ C hext₁ h₁ hC => ?_
    refine (hexpr y (by simp [Form.parts]) hext₁ h₁).bind fun g₂ s₂ Y hext₂ h₂ hY => ?_
    refine (hexpr n (by simp [Form.parts]) (hext₁.trans hext₂) h₂).bind fun g₃ s₃ K hext₃ h₃ hK => yields_pure h₃ ?_
    have hC₃ := hC.grow (hext₂.trans hext₃)
    have hY₃ := hY.grow hext₃
    have hYmade := hY₃.made (hequated y (by simp [Form.equated]))
    refine ⟨Sound.require (sound_merged ?_ _) ?_, hY₃.owned, fun _ => hYmade, fun hindirect => hY₃.notRecord ?_⟩
    · simp [hC₃.sound, hY₃.sound, hK.sound]
    · simp only [List.mem_cons, List.not_mem_nil, or_false, forall_eq_or_imp, forall_eq]
      exact ⟨settled_eq (hC₃.made (hequated c (by simp [Form.equated]))).fixed (made_prim g₃ u .bool).fixed,
        settled_eq hYmade.fixed (hK.made (hequated n (by simp [Form.equated]))).fixed⟩
    · exact hindirect.part (by simp [Expr.form, Form.results])
  | withIn scope body =>
    refine (hexpr scope (by simp [Form.parts]) (.refl g) h).bind fun g₁ s₁ K hext₁ h₁ hK => ?_
    refine (yields_recordOf h₁ hK.owned).bind fun g₂ s₂ record hext₂ h₂ hrecord => ?_
    have hctx₂ := hctx.grow (hext₁.trans hext₂)
    -- what is opened is no set literal, so the record was remembered
    have htaken : ∀ k, record = some k → g₂.Taken ctx.mono (.record k.fields false) k.origin := by
      intro k hk
      refine (hrecord k hk).resolve_left ?_
      rintro ⟨-, -, fields, isOpen, hty⟩
      exact hK.notRecord (horderly.opened scope (by simp [Expr.form, Form.opened])) fields isOpen hty
    have hinner := hctx₂.enter (.withIn htaken hctx₂.charted) (by rintro i ⟨⟩)
    refine (hrun.expr body (hparts body (by simp [Form.parts])) hinner h₂).bind fun g₃ s₃ J hext₃ h₃ hJ =>
      yields_pure h₃ ?_
    have hbody : g₃.Sound ctx.mono ctx.scopes J :=
      hJ.sound.leave (fun _ hv => hv) (fun e he => ⟨he, by rintro ⟨⟩⟩) hJ.sound.constraints J.ty
    refine ⟨sound_merged ?_ _, hJ.owned, fun hsealed => hJ.made ?_, fun hindirect => hJ.notRecord ?_⟩
    · simp [hbody, hK.sound.grow (hext₂.trans hext₃)]
    · exact hsealed.part (by simp [Expr.form, Form.values])
    · exact hindirect.part (by simp [Expr.form, Form.results])
  | assertIn c body =>
    refine (hexpr c (by simp [Form.parts]) (.refl g) h).bind fun g₁ s₁ C hext₁ h₁ hC => ?_
    refine (hexpr body (by simp [Form.parts]) hext₁ h₁).bind fun g₂ s₂ J hext₂ h₂ hJ => yields_pure h₂ ?_
    have hC₂ := hC.grow hext₂
    refine ⟨Sound.require (sound_merged ?_ _) ?_, hJ.owned, fun hsealed => hJ.made ?_, fun hindirect => hJ.notRecord ?_⟩
    · simp [hC₂.sound, hJ.sound]
    · simp only [List.mem_singleton, forall_eq]
      exact settled_eq (hC₂.made (hequated c (by simp [Form.equated]))).fixed (made_prim g₂ u .bool).fixed
    · exact hsealed.part (by simp [Expr.form, Form.values])
    · exact hindirect.part (by simp [Expr.form, Form.results])
  | stringParts ps | pathParts ps => exact yields_interpolation hrun hctx h hparts _

theorem bodySlots_of_waiting {p : Pending} (hp : g.Waiting i outer home p) : bodySlots p.scopes = bodySlots home := by
  rcases hp.scopes with heq | ⟨slots, components, heq⟩ <;> rw [heq]
  rfl

theorem Waiting.home_suffix {p : Pending} (hp : g.Waiting i outer home p) : home <:+ p.scopes := by
  rcases hp.scopes with heq | ⟨slots, components, heq⟩ <;> rw [heq]
  exact List.suffix_cons _ home

theorem Waiting.leave {p : Pending} (hp : g.Waiting i outer home p) (hJ : g'.Sound p.mono p.scopes J) :
    g'.Sound p.mono home J := by
  rcases hp.scopes with heq | ⟨slots, components, heq⟩ <;> rw [heq] at hJ
  · exact hJ
  · exact hJ.leave_group

/-- The context in which a definition is judged, at its own place. -/
theorem Waiting.surrounds {p : Pending} (hp : g.Waiting i outer home p) (houter : outer <:+ u)
    (hhome : home <:+ ctx.scopes) (hctx : g.Surrounds ctx u) :
    g.Surrounds ⟨p.scopes, p.mono, i :: ctx.forcing⟩ (.slot i p.mono :: outer) where
  fixed v hv := (hp.fixed v hv).enter hv
  frames f hf := by
    rcases List.mem_cons.1 hf with rfl | hf
    · exact ⟨i, p.mono, rfl, List.mem_cons_self⟩
    · obtain ⟨k, M, hf, hk⟩ := hctx.frames f (houter.subset hf)
      exact ⟨k, M, hf, List.mem_cons_of_mem i hk⟩
  charted := hp.charted
  bodies k hk := by
    have hbody : k ∈ bodySlots home := bodySlots_of_waiting hp ▸ hk
    intro hmem
    rcases List.mem_cons.1 hmem with rfl | hmem
    · -- the slot itself lies further inside than the scopes around its group
      exact Nat.lt_irrefl _ ((hp.charted.of_suffix hp.home_suffix).length_home hbody hp.slot)
    · obtain ⟨before, hbefore⟩ := hhome
      refine hctx.bodies k ?_ hmem
      rw [← hbefore, bodySlots, List.flatMap_append]
      exact List.mem_append_right _ hbody

/-- What is left to do for a slot that waits. -/
theorem yields_finishSlot (hrun : Charts run) {p : Pending} (hp : g.Waiting i outer home p) (houter : outer <:+ u)
    (hhome : home <:+ ctx.scopes) (hctx : g.Surrounds ctx u) (hi : i ∉ ctx.forcing)
    (h : g.Describes (i :: ctx.forcing) s) :
    Yields ctx.forcing g s (finishSlot run ctx i p) fun g₁ J => g₁.Done i p.mono outer home J := by
  have hinner := hp.surrounds houter hhome hctx
  have hfinish : ∀ {g₁ : Chart} {t : State} {K : Judgment} {q : Place}, g.Extends g₁ →
      g₁.Describes (i :: ctx.forcing) t → g₁.Sound p.mono p.scopes K →
      (q = .slot i p.mono :: outer ∨ q ∈ g₁.closed) → q.mono = p.mono → outer <:+ q → g₁.Owned p.mono q K.ty →
      Yields ctx.forcing g₁ t (do changeSlots (·.finish i K); return K) fun g₂ J => g₂.Done i p.mono outer home J := by
    intro g₁ t K q hext h₁ hK hq hmono hqouter howned
    refine (yields_finish h₁ hi (hext.slot hp.slot) (hp.leave hK) hq hmono hqouter howned).bind
      fun g₂ t' _ _ h₂ hdone => ?_
    exact yields_pure h₂ hdone
  have hown : outer <:+ .slot i p.mono :: outer := List.suffix_cons _ outer
  unfold finishSlot
  simp only
  cases hvalue : p.value with
  | expr e =>
    refine (hrun.expr e (hp.expr e hvalue) hinner h).bind fun g₁ s₁ K hext h₁ hK => ?_
    exact hfinish hext h₁ hK.sound (.inl rfl) rfl hown hK.owned
  | field source name =>
    have hfield := hp.field source name hvalue
    refine (hrun.force (fun _ => .slot i p.mono :: outer) hfield hown hp.home_suffix hinner h).bind ?_
    intro g₁ s₁ K hext₁ h₁ hK
    -- the source is at home at a closed place, unless it is being judged itself
    obtain ⟨q, hq, hmono, hqouter, howned⟩ : ∃ q : Place, (q = .slot i p.mono :: outer ∨ q ∈ g₁.closed) ∧
        q.mono = p.mono ∧ outer <:+ q ∧ g₁.Owned p.mono q K.ty := by
      rcases hK with ⟨-, hdone⟩ | ⟨-, w, rfl, hw⟩
      · obtain ⟨q, -, hclosed, hmono, hqouter, howned⟩ := hdone.host
        exact ⟨q, .inr hclosed, hmono, hqouter, howned⟩
      · exact ⟨_, .inl rfl, rfl, hown, Fresh.owned ⟨w, rfl, hw⟩⟩
    refine (yields_fieldOf (hinner.grow hext₁) h₁ howned name).bind fun g₂ s₂ J hext₂ h₂ hJ => ?_
    have hext := hext₁.trans hext₂
    rcases hJ.2 with hfresh | hpart
    · exact hfinish hext h₂ hJ.1 (.inl rfl) rfl hown hfresh.owned
    · exact hfinish hext h₂ hJ.1 (hq.imp_right hext₂.mem_closed) hmono hqouter ((howned.grow hext₂).part hpart)

theorem yields_force (hrun : Charts run) (q : Nat → Place) (hslot : g.slots[i]? = some (.slot i N :: outer, home))
    (houter : outer <:+ u) (hhome : home <:+ ctx.scopes) (hctx : g.Surrounds ctx u) (h : g.Describes ctx.forcing s) :
    Yields ctx.forcing g s (force run ctx i) fun g₁ J => (i ∉ ctx.forcing ∧ g₁.Done i N outer home J) ∨
      (i ∈ ctx.forcing ∧ ∃ w, J = .ofTy (.var w) ∧ g₁.vars[w]? = some (q w, ∅)) := by
  intro J t hrun'
  rw [run_force] at hrun'
  cases hs : s.slot? i with
  | none =>
    rw [hs] at hrun'
    cases hrun'
  | some c =>
    rw [hs] at hrun'
    cases c with
    | reserved => cases hrun'
    | deferred p =>
      have hi := h.not_mem_of_slot hs (by simp)
      obtain ⟨outer', home', hp⟩ := h.slots i _ hs
      obtain ⟨hmono, rfl, rfl⟩ : p.mono = N ∧ outer' = outer ∧ home' = home := by
        have heq := hp.slot.symm.trans hslot
        simp only [Option.some.injEq, Prod.mk.injEq, List.cons.injEq, Frame.slot.injEq, true_and] at heq
        exact ⟨heq.1.1, heq.1.2, heq.2⟩
      have h₁ : g.Describes (i :: ctx.forcing) (s.put i .forcing) :=
        h.put hs (by simp) (show g.SlotOk i .forcing from trivial) (by simp) fun k hk => by simp [hk]
      obtain ⟨g₁, hext, hdesc, hdone⟩ := yields_finishSlot hrun hp houter hhome hctx hi h₁ J t hrun'
      exact ⟨g₁, hext, hdesc, .inl ⟨hi, hmono ▸ hdone⟩⟩
    | forcing =>
      have hi := (h.forcing i).1 hs
      have hloop :
          Yields ctx.forcing g s (do note (.refersToItself i); record fun _ => .looped ctx i; unknown) fun g₁ J =>
          ∃ w, J = .ofTy (.var w) ∧ g₁.vars[w]? = some (q w, ∅) := by
        refine (yields_note h _).bind fun g₁ s₁ _ _ h₁ _ => (yields_record h₁ _).bind fun g₂ s₂ _ _ h₂ _ => ?_
        exact yields_unknown_at h₂ q
      obtain ⟨g₁, hext, hdesc, hJ⟩ := hloop J t hrun'
      exact ⟨g₁, hext, hdesc, .inr ⟨hi, hJ⟩⟩
    | forced K =>
      cases hrun'
      obtain ⟨N', outer', home', hdone⟩ := h.slots i _ hs
      obtain ⟨rfl, rfl, rfl⟩ : N' = N ∧ outer' = outer ∧ home' = home := by
        have heq := hdone.slot.symm.trans hslot
        simp only [Option.some.injEq, Prod.mk.injEq, List.cons.injEq, Frame.slot.injEq, true_and] at heq
        exact ⟨heq.1.1, heq.1.2, heq.2⟩
      exact ⟨g, .refl g, h, .inl ⟨h.not_mem_of_slot hs (by simp), hdone⟩⟩

/-- The walk keeps a chart at every depth: one level more is one walked expression or one needed slot
over a runner that already does. -/
theorem charts_runTo (henv : env.Closed) (n : Nat) : Charts (runTo env n) := by
  induction n with
  | zero => exact ⟨fun _ _ _ _ => yields_throw _, fun _ _ _ _ _ _ => yields_throw _⟩
  | succ n ih =>
    refine ⟨fun e he hctx h => ?_, fun q hslot houter hhome hctx h => ?_⟩
    · refine (yields_expression henv ih hctx h he).bind fun g₁ s₁ J _ h₁ hJ => ?_
      refine (yields_record h₁ _).bind fun g₂ s₂ _ hext h₂ _ => yields_pure h₂ (hJ.grow hext)
    · exact yields_force ih q hslot houter hhome hctx h

theorem describes_empty : Chart.Describes {} [] {} := by
  refine ⟨rfl, rfl, fun i c hc => ?_, fun i => ?_, ?_, ?_, ?_⟩
  · cases hc
  · have hnone : State.slot? {} i = none := rfl
    simp [hnone]
  · rintro p ⟨⟩
  · rintro i p ⟨⟩
  · rintro v k ⟨⟩

end Walk

end Chart

end NixTyping
