import Mathlib
import NixTyping.Proofs.ChartedJudgment
/-!
# States with a chart

A chart describes a state when it has the place of every variable and of every slot,
when slots that are done have a closed place for their types, and when closed places
belong to slots that are done (`Describes`). Since the places around an expression
belong to slots that are being computed, no closed place is around it
(`Describes.clear`).

`Yields` says that a computation keeps a chart of its state. It is shown here for
the steps of a walk that look at no expression.
-/

namespace NixTyping

open Judging

namespace Chart

variable {g g' : Chart} {F : List Nat} {s : State} {M N : VarSet} {u outer : Place} {scopes home : List Scope} {i : Nat}
  {J : Judgment} {ctx : Context}

/-! ## Slots -/

/-- A definition that waits in its slot. A name that is taken from outside does not
see its group. -/
structure Waiting (g : Chart) (i : Nat) (outer : Place) (home : List Scope) (p : Pending) : Prop where
  slot : g.slots[i]? = some (.slot i p.mono :: outer, home)
  fixed : ∀ v ∈ p.mono, g.Fixed outer v
  charted : g.Charted p.mono (.slot i p.mono :: outer) p.scopes
  scopes : p.scopes = home ∨ ∃ slots components, p.scopes = .group slots p.mono components :: home
  expr : ∀ e, p.value = .expr e → e.Everywhere Expr.Orderly
  field : ∀ source name, p.value = .field source name → g.slots[source]? = some (.slot source p.mono :: outer, home)

/-- A definition that was judged. Its type is at home at a closed place, which for a
field is that of its source. -/
structure Done (g : Chart) (i : Nat) (N : VarSet) (outer : Place) (home : List Scope) (J : Judgment) : Prop where
  slot : g.slots[i]? = some (.slot i N :: outer, home)
  sound : g.Sound N home J
  host : ∃ h, g.hosts.lookup i = some h ∧ h ∈ g.closed ∧ h.mono = N ∧ outer <:+ h ∧ g.Owned N h J.ty

def SlotOk (g : Chart) (i : Nat) : Slot Pending Judgment → Prop
  | .deferred p => ∃ outer home, g.Waiting i outer home p
  | .forced J => ∃ N outer home, g.Done i N outer home J
  | _ => True

theorem Waiting.grow {p : Pending} (h : g.Waiting i outer home p) (hext : g.Extends g') :
    g'.Waiting i outer home p where
  slot := hext.slot h.slot
  fixed v hv := (h.fixed v hv).grow hext
  charted := h.charted.grow hext
  scopes := h.scopes
  expr := h.expr
  field source name hvalue := hext.slot (h.field source name hvalue)

theorem Done.grow (h : g.Done i N outer home J) (hext : g.Extends g') : g'.Done i N outer home J := by
  obtain ⟨p, hhost, hclosed, hmono, houter, howned⟩ := h.host
  exact ⟨hext.slot h.slot, h.sound.grow hext, p, hext.host hhost, hext.mem_closed hclosed, hmono, houter,
    howned.grow hext⟩

theorem SlotOk.grow {c : Slot Pending Judgment} (h : g.SlotOk i c) (hext : g.Extends g') : g'.SlotOk i c := by
  cases c with
  | reserved | forcing => trivial
  | deferred p =>
    obtain ⟨outer, home, hwaiting⟩ := h
    exact ⟨outer, home, hwaiting.grow hext⟩
  | forced J =>
    obtain ⟨N, outer, home, hdone⟩ := h
    exact ⟨N, outer, home, hdone.grow hext⟩

/-! ## States and contexts -/

/-- The chart of a state in which the slots of `F` are being computed. -/
structure Describes (g : Chart) (F : List Nat) (s : State) : Prop where
  vars : g.vars.length = s.next
  size : g.slots.length = s.size
  slots : ∀ i c, s.slot? i = some c → g.SlotOk i c
  forcing : ∀ i, s.slot? i = some .forcing ↔ i ∈ F
  closed : ∀ p ∈ g.closed,
    (∃ i N rest J, p = .slot i N :: rest ∧ s.slot? i = some (.forced J)) ∨ ∃ w N, p = [.loose w N]
  hosts : ∀ i h, g.hosts.lookup i = some h → ∃ J, s.slot? i = some (.forced J)
  known : ∀ v k, s.known.lookup v = some k →
    ∃ p N, g.vars[v]? = some (p, N) ∧ g.Taken N (.record k.fields false) k.origin

/-- The context at a place, whose definitions are all being computed. -/
structure Surrounds (g : Chart) (ctx : Context) (u : Place) : Prop where
  fixed : ∀ v ∈ ctx.mono, g.Fixed u v
  frames : ∀ f ∈ u, ∃ i N, f = .slot i N ∧ i ∈ ctx.forcing
  charted : g.Charted ctx.mono u ctx.scopes
  bodies : ∀ i ∈ bodySlots ctx.scopes, i ∉ ctx.forcing

theorem Surrounds.grow (h : g.Surrounds ctx u) (hext : g.Extends g') : g'.Surrounds ctx u where
  fixed v hv := (h.fixed v hv).grow hext
  frames := h.frames
  charted := h.charted.grow hext
  bodies := h.bodies

/-- No closed place is around an expression that is being judged. -/
theorem Describes.clear (h : g.Describes ctx.forcing s) (hctx : g.Surrounds ctx u) {p : Place} (hp : p ∈ g.closed) :
    g.Clear u p := by
  obtain ⟨before, after, hclosed⟩ := List.append_of_mem hp
  refine ⟨before, after, hclosed, fun q hq hqu => ?_⟩
  have hmem : q ∈ g.closed := by
    rw [hclosed]
    rcases List.mem_cons.1 hq with rfl | hq <;> simp_all
  rcases h.closed q hmem with ⟨i, N, rest, J, rfl, hslot⟩ | ⟨w, N, rfl⟩
  · obtain ⟨k, N', hframe, hk⟩ := hctx.frames (.slot i N) (hqu.subset List.mem_cons_self)
    cases hframe
    rw [(h.forcing i).2 hk] at hslot
    cases hslot
  · obtain ⟨k, N', hframe, -⟩ := hctx.frames (.loose w N) (hqu.subset List.mem_cons_self)
    cases hframe

/-! ## Computations -/

/-- Where the computation succeeds, the chart can be extended to one of the new state. -/
def Yields {α : Type} (F : List Nat) (g : Chart) (s : State) (m : Judging α) (Q : Chart → α → Prop) : Prop :=
  ∀ a t, m.run s = .ok (a, t) → ∃ g', g.Extends g' ∧ g'.Describes F t ∧ Q g' a

section Yields
variable {α β γ : Type} {F₁ : List Nat} {m : Judging α} {P : Chart → α → Prop} {Q : Chart → β → Prop}

theorem yields_pure {a : α} (h : g.Describes F s) (ha : P g a) : Yields F g s (pure a) P := by
  intro b t hrun
  cases hrun
  exact ⟨g, .refl g, h, ha⟩

theorem yields_throw (e : Stuck) : Yields F g s (throw e) P := by
  intro b t hrun
  cases hrun

theorem Yields.bind {f : α → Judging β} (h : Yields F₁ g s m P)
    (hf : ∀ g₁ t a, g.Extends g₁ → g₁.Describes F₁ t → P g₁ a → Yields F g₁ t (f a) Q) : Yields F g s (m >>= f) Q := by
  intro b t hrun
  rw [StateT.run_bind] at hrun
  cases hm : m.run s with
  | error e =>
    rw [hm] at hrun
    cases hrun
  | ok r =>
    rw [hm] at hrun
    obtain ⟨g₁, hext, hdesc, hP⟩ := h r.1 r.2 hm
    obtain ⟨g₂, hext', hrest⟩ := hf g₁ r.2 r.1 hext hdesc hP b t hrun
    exact ⟨g₂, hext.trans hext', hrest⟩

theorem yields_get {f : State → Judging β} (h : Yields F g s (f s) Q) : Yields F g s (get >>= f) Q := h

theorem Yields.imp {P' : Chart → α → Prop} (h : Yields F g s m P) (himp : ∀ g₁ a, g.Extends g₁ → P g₁ a → P' g₁ a) :
    Yields F g s m P' := by
  intro a t hrun
  obtain ⟨g₁, hext, hdesc, hP⟩ := h a t hrun
  exact ⟨g₁, hext, hdesc, himp g₁ a hext hP⟩

/-- A chart may be extended first. -/
theorem Yields.after (hext : g.Extends g') (h : Yields F g' s m P) : Yields F g s m P := by
  intro a t hrun
  obtain ⟨g₁, hext', hrest⟩ := h a t hrun
  exact ⟨g₁, hext.trans hext', hrest⟩

/-- What holds of the result for an element keeps holding while the rest of a list is
worked off. -/
theorem yields_mapM {xs : List γ} {f : γ → Judging α} {R : Chart → γ → α → Prop}
    (hgrow : ∀ x a g₁ g₂, R g₁ x a → g₁.Extends g₂ → R g₂ x a) (h : g.Describes F s)
    (hf : ∀ x ∈ xs, ∀ g₁ t, g.Extends g₁ → g₁.Describes F t → Yields F g₁ t (f x) fun g₂ => R g₂ x) :
    Yields F g s (xs.mapM f) fun g₁ as => List.Forall₂ (R g₁) xs as := by
  induction xs generalizing g s with
  | nil => exact yields_pure h .nil
  | cons x xs ih =>
    rw [List.mapM_cons]
    refine (hf x List.mem_cons_self g s (.refl g) h).bind fun g₁ t a hext h₁ ha => ?_
    refine (ih h₁ fun y hy g₂ t' hext' => hf y (List.mem_cons_of_mem x hy) g₂ t' (hext.trans hext')).bind ?_
    intro g₂ t' as hext' h₂ has
    exact yields_pure h₂ (.cons (hgrow x a g₁ g₂ ha hext') has)

theorem yields_forM {xs : List γ} {f : γ → Judging Unit} (h : g.Describes F s)
    (hf : ∀ x ∈ xs, ∀ g₁ t, g.Extends g₁ → g₁.Describes F t → Yields F g₁ t (f x) fun _ _ => True) :
    Yields F g s (xs.forM f) fun _ _ => True := by
  induction xs generalizing g s with
  | nil => exact yields_pure h trivial
  | cons x xs ih =>
    rw [List.forM_eq_forM, List.forM_cons]
    refine (hf x List.mem_cons_self g s (.refl g) h).bind fun g₁ t _ hext h₁ _ => ?_
    exact ih h₁ fun y hy g₂ t' hext' => hf y (List.mem_cons_of_mem x hy) g₂ t' (hext.trans hext')

end Yields

/-! ## Fresh variables and records -/

section Steps

/-- The next variable is issued at a place. -/
def issue (g : Chart) (p : Place) (N : VarSet) : Chart := { g with vars := g.vars ++ [(p, N)] }

theorem extends_issue (g : Chart) (p : Place) (N : VarSet) : g.Extends (g.issue p N) :=
  { Extends.refl g with vars := List.prefix_append _ _ }

theorem Describes.issue (h : g.Describes F s) (p : Place) (N : VarSet) :
    (g.issue p N).Describes F { s with next := s.next + 1 } where
  vars := by simp [Chart.issue, h.vars]
  size := h.size
  slots i c hc := (h.slots i c hc).grow (extends_issue g p N)
  forcing := h.forcing
  closed := h.closed
  hosts := h.hosts
  known v k hk := by
    obtain ⟨q, N', hq, htaken⟩ := h.known v k hk
    exact ⟨q, N', (extends_issue g p N).var hq, htaken.grow (extends_issue g p N)⟩

/-- The place of the variable may depend on its number. -/
theorem yields_fresh (h : g.Describes F s) (q : Nat → Place) (N : VarSet) :
    Yields F g s fresh fun g₁ v => g₁.vars[v]? = some (q v, N) := by
  intro v t hrun
  cases hrun
  refine ⟨g.issue (q s.next) N, extends_issue g _ N, h.issue _ N, ?_⟩
  show (g.vars ++ [(q s.next, N)])[s.next]? = _
  rw [← h.vars, List.getElem?_concat_length]

theorem yields_freshTy (h : g.Describes F s) (u : Place) : Yields F g s freshTy fun g₁ t => g₁.Fresh u t :=
  (yields_fresh h (fun _ => u) ∅).bind fun _ _ v _ h₁ hv => yields_pure h₁ ⟨v, rfl, hv⟩

theorem yields_unknown_at (h : g.Describes F s) (q : Nat → Place) :
    Yields F g s unknown fun g₁ J => ∃ w, J = .ofTy (.var w) ∧ g₁.vars[w]? = some (q w, ∅) := by
  have hvar : Yields F g s freshTy fun g₁ t => ∃ w, t = .var w ∧ g₁.vars[w]? = some (q w, ∅) :=
    (yields_fresh h q ∅).bind fun _ _ v _ h₁ hv => yields_pure h₁ ⟨v, rfl, hv⟩
  refine hvar.bind fun g₁ t' t _ h₁ ht => yields_pure h₁ ?_
  obtain ⟨w, rfl, hw⟩ := ht
  exact ⟨w, rfl, hw⟩

theorem yields_unknown (h : g.Describes F s) (M : VarSet) (scopes : List Scope) (u : Place) :
    Yields F g s unknown fun g₁ J => g₁.Sound M scopes J ∧ g₁.Fresh u J.ty := by
  refine (yields_unknown_at h fun _ => u).imp fun g₁ J _ hJ => ?_
  obtain ⟨w, rfl, hw⟩ := hJ
  exact ⟨sound_ofTy g₁ M scopes _, w, rfl, hw⟩

theorem yields_note (h : g.Describes F s) (n : Note) : Yields F g s (note n) fun _ _ => True := by
  intro a t hrun
  cases hrun
  exact ⟨g, .refl g, { h with }, trivial⟩

theorem yields_record (h : g.Describes F s) (e : State → Event) : Yields F g s (record e) fun _ _ => True := by
  intro a t hrun
  cases hrun
  exact ⟨g, .refl g, { h with }, trivial⟩

theorem yields_remember (h : g.Describes F s) {v : Nat} {p : Place} (hv : g.vars[v]? = some (p, N)) {k : KnownRecord}
    (hk : g.Taken N (.record k.fields false) k.origin) : Yields F g s (remember v k) fun _ _ => True := by
  intro a t hrun
  cases hrun
  refine ⟨g, .refl g, { h with known := fun w k' hw => ?_ }, trivial⟩
  by_cases hwv : w = v
  · subst hwv
    rw [List.lookup_cons_self] at hw
    cases hw
    exact ⟨p, N, hv, hk⟩
  · simp only [List.lookup_cons, beq_eq_false_iff_ne.2 hwv] at hw
    exact h.known w k' hw

/-- A record is that of the type itself, or it was remembered. -/
theorem yields_recordOf (h : g.Describes F s) {t : Ty} {p : Place} (ht : g.Owned M p t) :
    Yields F g s (recordOf t) fun g₁ r => ∀ k, r = some k →
      (k.origin = .here ∧ (Ty.record k.fields false).PartOf t ∧ ∃ fields isOpen, t = .record fields isOpen) ∨
        g₁.Taken M (.record k.fields false) k.origin := by
  cases t with
  | record fields isOpen =>
    refine yields_pure h fun k hk => ?_
    cases hk
    exact .inl ⟨rfl, Ty.partOf_record fields false isOpen, fields, isOpen, rfl⟩
  | var v =>
    refine yields_get (yields_pure h fun k hk => .inr ?_)
    obtain ⟨q, N, hq, htaken⟩ := h.known v k hk
    obtain ⟨q', N', hq', -, hshows⟩ := ht v (Ty.mem_free_var.2 rfl)
    rw [hq] at hq'
    obtain ⟨-, rfl⟩ := Prod.mk.inj (Option.some.inj hq')
    exact htaken.mono (hshows .var)
  | _ => exact yields_pure h fun k hk => by cases hk

/-- A use of a type out of a record: the type itself, or a fresh instance of it. -/
theorem yields_instanceOf (hctx : g.Surrounds ctx u) (h : g.Describes ctx.forcing s) {t : Ty} {o : Origin}
    (ht : o = .here ∨ g.Taken ctx.mono t o) :
    Yields ctx.forcing g s (instanceOf t o) fun g₁ J =>
      g₁.Sound ctx.mono ctx.scopes J ∧ (g₁.Fresh u J.ty ∨ (o = .here ∧ J.ty = t)) := by
  cases o with
  | here => exact yields_pure h ⟨sound_ofTy _ _ _ t, .inr ⟨rfl, rfl⟩⟩
  | letBound N =>
    obtain ⟨hN, p, hp, hmono, hwithin⟩ := ht.resolve_left (by simp)
    refine (yields_freshTy h u).bind fun g₁ s₁ tv hext h₁ htv => yields_pure h₁ ⟨?_, .inl htv⟩
    refine sound_constrained (settled_implicit htv.made.fixed (fun v hv => ?_) hmono
      (fun v hv => (hwithin v hv).grow hext) ((h.clear hctx hp).grow hext)) _
    exact (hctx.fixed v (hN v hv)).grow hext
  | ambient vars =>
    have hvars : ∀ v ∈ t.free, v ∈ vars := ht.resolve_left (by simp)
    refine (yields_freshTy h u).bind fun g₁ s₁ tv hext h₁ htv => yields_pure h₁ ⟨?_, .inl htv⟩
    refine sound_constrained (settled_of_fixed u (by simp) fun v hv => ?_) _
    rcases hv with hv | hv
    · exact htv.made.fixed v hv
    · obtain ⟨hfree, hbound⟩ := Scheme.mem_free.1 hv
      exact (hbound (hvars v hfree)).elim

theorem yields_fieldOf (hctx : g.Surrounds ctx u) (h : g.Describes ctx.forcing s) {t : Ty} {p : Place}
    (ht : g.Owned ctx.mono p t) (name : String) :
    Yields ctx.forcing g s (fieldOf t name) fun g₁ J =>
      g₁.Sound ctx.mono ctx.scopes J ∧ (g₁.Fresh u J.ty ∨ J.ty.PartOf t) := by
  refine (yields_recordOf h ht).bind fun g₁ s₁ r hext h₁ hr => ?_
  have hunknown : Yields ctx.forcing g₁ s₁ unknown fun g₂ J =>
      g₂.Sound ctx.mono ctx.scopes J ∧ (g₂.Fresh u J.ty ∨ J.ty.PartOf t) :=
    (yields_unknown h₁ _ _ u).imp fun _ _ _ hJ => ⟨hJ.1, .inl hJ.2⟩
  cases r with
  | none => exact hunknown
  | some k =>
    dsimp only
    cases hfield : findKey name k.fields with
    | none => exact hunknown
    | some t' =>
      have hpart : t'.PartOf (.record k.fields false) := Ty.partOf_field (mem_of_findKey hfield) false
      rcases hr k rfl with ⟨hhere, hwhole, -⟩ | htaken
      · refine (yields_instanceOf (hctx.grow hext) h₁ (.inl hhere)).imp fun _ J _ hJ => ⟨hJ.1, hJ.2.imp_right ?_⟩
        rintro ⟨-, hty⟩
        rw [hty]
        exact hpart.trans hwhole
      · refine (yields_instanceOf (hctx.grow hext) h₁ (.inr (htaken.part hpart))).imp fun _ J _ hJ => ⟨hJ.1, .inl ?_⟩
        refine hJ.2.resolve_right fun hhere => ?_
        rw [hhere.1] at htaken
        exact htaken

end Steps

/-! ## Reserving, filling and finishing slots -/

section Slots

/-- The next slot is reserved for a definition. -/
def reserve (g : Chart) (p : Place) (home : List Scope) : Chart := { g with slots := g.slots ++ [(p, home)] }

/-- A place is closed. -/
def close (g : Chart) (p : Place) : Chart := { g with closed := g.closed ++ [p] }

/-- The type of a slot is at home at a place, which is closed. -/
def settle (g : Chart) (i : Nat) (p : Place) : Chart := { g.close p with hosts := g.hosts ++ [(i, p)] }

theorem extends_reserve (g : Chart) (p : Place) (home : List Scope) : g.Extends (g.reserve p home) :=
  { Extends.refl g with slots := List.prefix_append _ _ }

theorem extends_close (g : Chart) (p : Place) : g.Extends (g.close p) :=
  { Extends.refl g with closed := List.prefix_append _ _ }

theorem extends_settle (g : Chart) (i : Nat) (p : Place) : g.Extends (g.settle i p) :=
  { extends_close g p with hosts := List.prefix_append _ _ }

theorem Describes.not_mem_of_slot (h : g.Describes F s) {c : Slot Pending Judgment} (hslot : s.slot? i = some c)
    (hc : c ≠ .forcing) : i ∉ F := by
  intro hi
  rw [(h.forcing i).2 hi] at hslot
  exact hc (Option.some.inj hslot).symm

theorem Describes.lt_size_of_mem (h : g.Describes F s) (hi : i ∈ F) : i < s.size := State.lt_size ((h.forcing i).2 hi)

theorem Describes.reserve (h : g.Describes F s) (p : Place) (home : List Scope) :
    (g.reserve p home).Describes F (s.push .reserved) := by
  have hext := extends_reserve g p home
  have hforced : ∀ k J, s.slot? k = some (.forced J) → (s.push .reserved).slot? k = some (.forced J) := by
    intro k J hk
    rw [State.slot?_push_ne (State.lt_size hk).ne]
    exact hk
  refine ⟨h.vars, ?_, fun k c hk => ?_, fun k => ?_, fun q hq => ?_, fun k q hk => ?_, fun v r hr => ?_⟩
  · show (g.slots ++ [(p, home)]).length = (Array.push _ _).size
    rw [List.length_append, Array.size_push, h.size]
    rfl
  · by_cases hsize : k = s.size
    · rw [hsize, State.slot?_push_self] at hk
      cases hk
      trivial
    · rw [State.slot?_push_ne hsize] at hk
      exact (h.slots k c hk).grow hext
  · by_cases hsize : k = s.size
    · have hk : k ∉ F := fun hk => (h.lt_size_of_mem hk).ne hsize
      rw [hsize, State.slot?_push_self, ← hsize]
      simp [hk]
    · rw [State.slot?_push_ne hsize]
      exact h.forcing k
  · refine (h.closed q hq).imp_left ?_
    rintro ⟨k, N, rest, J, rfl, hk⟩
    exact ⟨k, N, rest, J, rfl, hforced k J hk⟩
  · obtain ⟨J, hJ⟩ := h.hosts k q hk
    exact ⟨J, hforced k J hJ⟩
  · obtain ⟨q, N, hq, htaken⟩ := h.known v r hr
    exact ⟨q, N, hext.var hq, htaken.grow hext⟩

theorem yields_reserve (h : g.Describes F s) (N : VarSet) (outer : Place) (home : List Scope) :
    Yields F g s Judging.reserve fun g₁ i => g₁.slots[i]? = some (.slot i N :: outer, home) ∧ i ∉ F := by
  intro i t hrun
  cases hrun
  refine ⟨g.reserve (.slot s.size N :: outer) home, extends_reserve g _ home, h.reserve _ home, ?_, fun hi => ?_⟩
  · show (g.slots ++ [(Frame.slot s.size N :: outer, home)])[s.size]? = _
    rw [show s.slots.slots.size = g.slots.length from h.size.symm, ← h.size, List.getElem?_concat_length]
  · exact (h.lt_size_of_mem hi).ne rfl

section Put
variable {c c' : Slot Pending Judgment} (hslot : s.slot? i = some c)
include hslot

theorem slot?_put_of_forced (hc : ∀ J, c ≠ .forced J) {k : Nat} (hk : s.slot? k = some (.forced J)) :
    (s.put i c').slot? k = some (.forced J) := by
  have hne : k ≠ i := by
    rintro rfl
    exact hc J (Option.some.inj (hslot.symm.trans hk))
  rw [State.slot?_put_ne hne]
  exact hk

theorem Describes.forcing_put (h : g.Describes F s) {F' : List Nat} (hself : c' = .forcing ↔ i ∈ F')
    (hother : ∀ k, k ≠ i → (k ∈ F ↔ k ∈ F')) (k : Nat) : (s.put i c').slot? k = some .forcing ↔ k ∈ F' := by
  by_cases hki : k = i
  · subst hki
    rw [State.slot?_put_self (State.lt_size hslot), Option.some.injEq]
    exact hself
  · rw [State.slot?_put_ne hki, h.forcing k]
    exact hother k hki

theorem Describes.slots_put (h : g.Describes F s) (hext : g.Extends g') (hc' : g'.SlotOk i c') (k : Nat)
    (d : Slot Pending Judgment) (hk : (s.put i c').slot? k = some d) : g'.SlotOk k d := by
  by_cases hki : k = i
  · subst hki
    rw [State.slot?_put_self (State.lt_size hslot)] at hk
    cases hk
    exact hc'
  · rw [State.slot?_put_ne hki] at hk
    exact (h.slots k d hk).grow hext

omit hslot in
theorem Describes.size_put (h : g.Describes F s) (i : Nat) (c' : Slot Pending Judgment) :
    g.slots.length = (s.put i c').size := by
  show g.slots.length = (Array.setIfInBounds _ _ _).size
  rw [Array.size_setIfInBounds]
  exact h.size

/-- A slot that is not done goes on. -/
theorem Describes.put (h : g.Describes F s) (hc : ∀ J, c ≠ .forced J) (hc' : g.SlotOk i c') {F' : List Nat}
    (hself : c' = .forcing ↔ i ∈ F') (hother : ∀ k, k ≠ i → (k ∈ F ↔ k ∈ F')) : g.Describes F' (s.put i c') := by
  refine ⟨h.vars, h.size_put i c', h.slots_put hslot (.refl g) hc', h.forcing_put hslot hself hother,
    fun q hq => (h.closed q hq).imp_left ?_, fun k q hk => ?_, h.known⟩
  · rintro ⟨k, N, rest, J, rfl, hk⟩
    exact ⟨k, N, rest, J, rfl, slot?_put_of_forced hslot hc hk⟩
  · obtain ⟨J, hJ⟩ := h.hosts k q hk
    exact ⟨J, slot?_put_of_forced hslot hc hJ⟩

end Put

theorem yields_fill (h : g.Describes F s) {p : Pending} (hp : g.Waiting i outer home p) :
    Yields F g s (changeSlots (·.fill i p)) fun _ _ => True := by
  intro a t hrun
  rw [run_changeSlots] at hrun
  unfold Slots.fill at hrun
  cases hslot : s.slot? i with
  | none =>
    unfold State.slot? at hslot
    rw [hslot] at hrun
    cases hrun
  | some c =>
    have hraw : s.slots.slots[i]? = some c := hslot
    rw [hraw] at hrun
    cases c with
    | reserved =>
      cases hrun
      have hi := h.not_mem_of_slot hslot (by simp)
      exact ⟨g, .refl g, h.put hslot (by simp) (show g.SlotOk i (.deferred p) from ⟨outer, home, hp⟩)
        (by simp [hi]) fun _ _ => Iff.rfl, trivial⟩
    | _ => cases hrun

/-- A slot is done, and its type is at home at its own place or at a closed one. -/
theorem Describes.settle (h : g.Describes (i :: F) s) (hi : i ∉ F) {p : Place}
    (hp : p = .slot i N :: outer ∨ p ∈ g.closed) (hdone : (g.settle i p).Done i N outer home J) :
    (g.settle i p).Describes F (s.put i (.forced J)) := by
  have hext := extends_settle g i p
  have hforcing : s.slot? i = some .forcing := (h.forcing i).2 List.mem_cons_self
  have hself : (s.put i (.forced J)).slot? i = some (.forced J) := State.slot?_put_self (State.lt_size hforcing) _
  have hforced : ∀ {k J'}, s.slot? k = some (.forced J') → (s.put i (.forced J)).slot? k = some (.forced J') :=
    slot?_put_of_forced hforcing (by simp)
  have hclosed : ∀ q ∈ g.closed,
      (∃ k N rest J', q = .slot k N :: rest ∧ (s.put i (.forced J)).slot? k = some (.forced J')) ∨
        ∃ w N, q = [.loose w N] := by
    intro q hq
    refine (h.closed q hq).imp_left ?_
    rintro ⟨k, N', rest, J', rfl, hk⟩
    exact ⟨k, N', rest, J', rfl, hforced hk⟩
  refine ⟨h.vars, h.size_put i _, h.slots_put hforcing hext ⟨N, outer, home, hdone⟩, ?_, fun q hq => ?_,
    fun k q hk => ?_, fun v k hk => ?_⟩
  · exact h.forcing_put hforcing (by simp [hi]) fun k hk => by simp [hk]
  · rcases List.mem_append.1 hq with hq | hq
    · exact hclosed q hq
    · rw [List.mem_singleton.1 hq]
      rcases hp with rfl | hp
      · exact .inl ⟨i, N, outer, J, rfl, hself⟩
      · exact hclosed p hp
  · rw [show (g.settle i p).hosts = g.hosts ++ [(i, p)] from rfl, List.lookup_append] at hk
    rcases Option.or_eq_some_iff.1 hk with hk | ⟨-, hk⟩
    · obtain ⟨J', hJ'⟩ := h.hosts k q hk
      exact ⟨J', hforced hJ'⟩
    · obtain rfl : k = i := by
        by_contra hne
        simp [List.lookup_cons, beq_eq_false_iff_ne.2 hne] at hk
      exact ⟨J, hself⟩
  · obtain ⟨q, N', hq, htaken⟩ := h.known v k hk
    exact ⟨q, N', hext.var hq, htaken.grow hext⟩

theorem yields_finish (h : g.Describes (i :: F) s) (hi : i ∉ F) (hslot : g.slots[i]? = some (.slot i N :: outer, home))
    (hJ : g.Sound N home J) {p : Place} (hp : p = .slot i N :: outer ∨ p ∈ g.closed) (hmono : p.mono = N)
    (houter : outer <:+ p) (hty : g.Owned N p J.ty) :
    Yields F g s (changeSlots (·.finish i J)) fun g₁ _ => g₁.Done i N outer home J := by
  intro a t hrun
  have hforcing : s.slot? i = some .forcing := (h.forcing i).2 List.mem_cons_self
  have hraw : s.slots.slots[i]? = some .forcing := hforcing
  rw [run_changeSlots] at hrun
  unfold Slots.finish at hrun
  rw [hraw] at hrun
  cases hrun
  have hext := extends_settle g i p
  have hnew : g.hosts.lookup i = none := by
    cases hlookup : g.hosts.lookup i with
    | none => rfl
    | some q =>
      obtain ⟨J', hJ'⟩ := h.hosts i q hlookup
      rw [hforcing] at hJ'
      cases hJ'
  have hhost : (g.settle i p).hosts.lookup i = some p := by
    show (g.hosts ++ [(i, p)]).lookup i = some p
    rw [List.lookup_append, hnew]
    simp
  have hdone : (g.settle i p).Done i N outer home J :=
    ⟨hext.slot hslot, hJ.grow hext, p, hhost, List.mem_append_right _ (by simp), hmono, houter, hty.grow hext⟩
  exact ⟨_, hext, h.settle hi hp hdone, hdone⟩

/-- A place that belongs to no slot may be closed at any time. -/
theorem Describes.close_loose (h : g.Describes F s) (w : Nat) (N : VarSet) : (g.close [.loose w N]).Describes F s := by
  have hext := extends_close g [.loose w N]
  refine ⟨h.vars, h.size, fun i c hc => (h.slots i c hc).grow hext, h.forcing, fun p hp => ?_, h.hosts,
    fun v k hk => ?_⟩
  · rcases List.mem_append.1 hp with hp | hp
    · exact h.closed p hp
    · exact .inr ⟨w, N, List.mem_singleton.1 hp⟩
  · obtain ⟨q, N', hq, htaken⟩ := h.known v k hk
    exact ⟨q, N', hext.var hq, htaken.grow hext⟩

end Slots

end Chart

end NixTyping
