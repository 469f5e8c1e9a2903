import Mathlib
import NixTyping.Proofs.ForcingStack
import NixTyping.Proofs.JudgmentRules
/-!
# What holds in the midst of a walk

`Holds env root forcing s` is the invariant of a walk: every slot waits for what its
group put there, or is being computed, or has the judgment of it; every judgment of
which the history tells follows by a rule from others of which it tells; and every
loop is a cycle of dependencies.

`Advance s s' X` compares two states of a walk. An expression that waits in a slot is
judged when the slot is computed, so of what a state has judged and what still waits
nothing is lost: a run adds to their sum the expressions `X` that it was given.
-/

namespace NixTyping

namespace Expr

/-- An expression and everything under it that is judged. -/
def walked (e : Expr) : List Expr :=
  e :: e.form.judged.attach.flatMap fun ⟨p, _⟩ => walked p
termination_by sizeOf e
decreasing_by exact sizeOf_mem_parts (Form.judged_subset ‹_›)

/-- Each of the expressions that are judged for an expression. -/
def worth (e : Expr) : Multiset Expr := e.walked

theorem worth_eq (e : Expr) : e.worth = e ::ₘ (e.form.judged.map worth).sum := by
  rw [worth, walked, ← Multiset.cons_coe, List.flatMap_def, List.attach_map_val, ← List.flatMap_def, coe_flatMap]
  rfl

theorem card_worth (e : Expr) : e.worth.card = (e.form.judged.map worth).sum.card + 1 := by
  rw [worth_eq, Multiset.card_cons]

theorem card_worth_of_mem {e : Expr} {es : List Expr} (h : e ∈ es) : e.worth.card ≤ (es.map worth).sum.card :=
  Multiset.card_le_card (List.single_le_sum (fun _ _ => Multiset.zero_le _) _ (List.mem_map_of_mem h))

end Expr

namespace Judging

/-! ## What a state has done and has to do -/

def Event.deferral? : Event → Option Deferral
  | .deferred d => some d
  | _ => none

def Event.expr? : Event → Option Expr
  | .judged _ e _ => some e
  | _ => none

/-- What is judged for a slot. -/
def Pending.worth (p : Pending) : Multiset Expr :=
  match p.value with
  | .expr e => e.worth
  | .field _ _ => 0

def slotWorth : Slot Pending Judgment → Multiset Expr
  | .deferred p => p.worth
  | _ => 0

namespace State

/-- What was put into the slots. -/
def plan (s : State) : List Pending := (s.history.filterMap Event.deferral?).reverse.flatMap Deferral.pendings

/-- The expressions that were judged. -/
def judged (s : State) : Multiset Expr := (s.history.filterMap Event.expr? : List Expr)

/-- The expressions that wait. -/
def pool (s : State) : Multiset Expr := (s.slots.slots.toList.map slotWorth).sum

/-- How many expressions wait. -/
def load (s : State) : Nat := s.pool.card

end State

section Pool
variable {s : State} {i : Nat}

theorem State.pool_put {y : Slot Pending Judgment} (h : s.slot? i = some y) (x : Slot Pending Judgment) :
    (s.put i x).pool + slotWorth y = s.pool + slotWorth x := by
  have hlist : s.slots.slots.toList[i]? = some y := by rwa [Array.getElem?_toList]
  rw [State.pool, State.put, Slots.put, Array.toList_setIfInBounds]
  exact sum_map_set slotWorth hlist x

theorem sum_map_le {α : Type} {f : α → Multiset Expr} {l l' : List α}
    (h : ∀ (i : Nat) (x : α), l'[i]? = some x → f x = 0 ∨ l[i]? = some x) : (l'.map f).sum ≤ (l.map f).sum := by
  induction l' generalizing l with
  | nil => exact Multiset.zero_le _
  | cons x l' ih =>
    cases l with
    | nil =>
      have hx : f x = 0 := (h 0 x rfl).resolve_right (by simp)
      have hrest := ih (l := []) fun i y hy => (h (i + 1) y (by simpa using hy)).imp_right (by simp)
      simpa [hx] using hrest
    | cons y l =>
      have hrest := ih (l := l) fun i z hz => (h (i + 1) z (by simpa using hz)).imp_right (by simp)
      have hhead : f x ≤ f y := by
        rcases h 0 x rfl with hx | hx
        · rw [hx]
          exact Multiset.zero_le _
        · obtain rfl : y = x := by simpa using hx
          exact le_rfl
      simpa using add_le_add hhead hrest

end Pool

/-! ## Advancing -/

/-- A run added to the history; nothing waits that did not wait before, and `X` was judged or put off besides what
waited. -/
structure Advance (s s' : State) (X : Multiset Expr) : Prop where
  history : s.history <:+ s'.history
  size : s.size ≤ s'.size
  waits : ∀ i p, s'.slot? i = some (.deferred p) → s.slot? i = some (.deferred p)
  account : s'.judged + s'.pool = s.judged + s.pool + X

section Advance
variable {s s₁ s₂ : State} {X Y : Multiset Expr}

theorem Advance.of_same (hslots : s₁.slots = s.slots) (hhistory : s₁.history = s.history) : Advance s s₁ 0 where
  history := hhistory ▸ List.suffix_refl _
  size := by rw [State.size, State.size, hslots]
  waits i p h := by rwa [State.slot?, hslots] at h
  account := by rw [State.judged, State.judged, State.pool, State.pool, hslots, hhistory, add_zero]

theorem Advance.refl (s : State) : Advance s s 0 := .of_same rfl rfl

theorem Advance.trans (h : Advance s s₁ X) (h' : Advance s₁ s₂ Y) : Advance s s₂ (X + Y) where
  history := h.history.trans h'.history
  size := h.size.trans h'.size
  waits i p hp := h.waits i p (h'.waits i p hp)
  account := by rw [h'.account, h.account, add_assoc]

theorem Advance.mem (h : Advance s s₁ X) {e : Event} (he : e ∈ s.history) : e ∈ s₁.history := h.history.subset he

theorem Advance.plan (h : Advance s s₁ X) : s.plan <+: s₁.plan := by
  obtain ⟨newer, hnewer⟩ := h.history
  rw [State.plan, State.plan, ← hnewer, List.filterMap_append, List.reverse_append, List.flatMap_append]
  exact List.prefix_append _ _

theorem Advance.planned (h : Advance s s₁ X) {i : Nat} {p : Pending} (hp : s.plan[i]? = some p) :
    s₁.plan[i]? = some p := by
  obtain ⟨more, hmore⟩ := h.plan
  rw [← hmore, List.getElem?_append_left (List.getElem?_eq_some_iff.1 hp).1, hp]

theorem Advance.load_le (h : Advance s s₁ X) : s₁.load ≤ s.load := by
  -- slots may be new, but only old ones still wait
  refine Multiset.card_le_card (sum_map_le fun i x hx => ?_)
  cases x with
  | deferred p =>
    have hslot := h.waits i p (by rwa [State.slot?, ← Array.getElem?_toList])
    exact .inr (by rwa [State.slot?, ← Array.getElem?_toList] at hslot)
  | _ => exact .inl rfl

end Advance

/-! ## The invariant -/

/-- The history tells of a judgment. -/
def Told (history : List Event) (scopes : List Scope) (e : Expr) (J : Judgment) : Prop :=
  ∃ ctx : Context, ctx.scopes = scopes ∧ Event.judged ctx e J ∈ history

theorem Told.mono {history history' : List Event} (h : ∀ e ∈ history, e ∈ history') {scopes : List Scope} {e : Expr}
    {J : Judgment} (hJ : Told history scopes e J) : Told history' scopes e J := by
  obtain ⟨ctx, hscopes, hmem⟩ := hJ
  exact ⟨ctx, hscopes, h _ hmem⟩

/-- The state of a slot in which `p` was put. -/
def Phase (env : Env) (history : List Event) (forcing : List Nat) (i : Nat) (p : Pending) : Slot Pending Judgment → Prop
  | .reserved => False
  | .deferred q => q = p ∧ i ∉ forcing
  | .forcing => i ∈ forcing
  | .forced J => i ∉ forcing ∧ Fulfils env (Told history) p J

theorem Phase.mono {env : Env} {history history' : List Event} {forcing : List Nat} {i : Nat} {p : Pending}
    {x : Slot Pending Judgment} (h : ∀ e ∈ history, e ∈ history') (hx : Phase env history forcing i p x) :
    Phase env history' forcing i p x := by
  cases x with
  | forced J => exact ⟨hx.1, hx.2.mono fun e _ => Told.mono h⟩
  | _ => exact hx

theorem OnCycle.mono {history history' : List Event} (h : ∀ e ∈ history, e ∈ history') {forcing : List Nat} {i : Nat}
    (hi : OnCycle history forcing i) : OnCycle history' forcing i := by
  obtain ⟨hforcing, d, hd, hrest⟩ := hi
  exact ⟨hforcing, d, h _ hd, hrest⟩

theorem Deferral.Placed.mono {env : Env} {root : Expr} {history history' : List Event} {d : Deferral}
    (h : ∀ e ∈ history, e ∈ history') (hd : d.Placed env root history) : d.Placed env root history' :=
  ⟨hd.stands.mono h le_rfl fun _ hx => hx, hd.above, hd.origin⟩

structure Holds (env : Env) (root : Expr) (forcing : List Nat) (s : State) : Prop where
  planned : s.plan.length = s.size
  phase : ∀ i p, s.plan[i]? = some p → ∃ x, s.slot? i = some x ∧ Phase env s.history forcing i p x
  live : ∀ i ∈ forcing, i < s.size
  laid : ∀ d, Event.deferred d ∈ s.history → ∀ k p, d.pendings[k]? = some p → s.plan[d.first + k]? = some p
  placed : ∀ d, Event.deferred d ∈ s.history → d.Placed env root s.history
  lawful : ∀ ctx e J, Event.judged ctx e J ∈ s.history → Follows env (Told s.history) ctx.scopes e.form J
  looped : ∀ ctx i, Event.looped ctx i ∈ s.history → OnCycle s.history ctx.forcing i
  noted : ∀ i, Note.refersToItself i ∈ s.notes → ∃ ctx, Event.looped ctx i ∈ s.history
  known : env.Viable → ∀ r ∈ s.known, r.2.Viable

section Holds
variable {env : Env} {root : Expr} {forcing : List Nat} {s : State}

/-- A judgment that the history tells of has no empty overload set that is not in the environment. -/
theorem Holds.viable (h : Holds env root forcing s) (henv : env.Viable) {scopes : List Scope} {e : Expr} {J : Judgment}
    (hJ : Told s.history scopes e J) : J.Viable := by
  induction e using Expr.parts_induction generalizing scopes J with
  | h e ih =>
    obtain ⟨ctx, rfl, hmem⟩ := hJ
    have hparts : Follows env (fun _ _ J => J.Viable) ctx.scopes e.form J :=
      (h.lawful ctx e J hmem).mono fun p hp sc J hJ => ih p (Form.judged_subset hp) hJ
    exact hparts.viable_of_parts henv fun _ _ _ hJ => hJ

/-- A slot of a group, with what was put into it. -/
theorem Holds.slot (h : Holds env root forcing s) {d : Deferral} (hd : Event.deferred d ∈ s.history) {i : Nat}
    (hi : d.has i = true) : ∃ p x, d.pendings[i - d.first]? = some p ∧ s.plan[i]? = some p ∧ s.slot? i = some x ∧
      Phase env s.history forcing i p x := by
  obtain ⟨hfirst, hlast⟩ := d.has_iff.1 hi
  have hlength : i - d.first < d.pendings.length := by rw [d.length_pendings]; omega
  have hp : d.pendings[i - d.first]? = some d.pendings[i - d.first] := List.getElem?_eq_getElem hlength
  have hplan := h.laid d hd _ _ hp
  rw [Nat.add_sub_cancel' hfirst] at hplan
  obtain ⟨x, hx, hphase⟩ := h.phase i _ hplan
  exact ⟨_, x, hp, hplan, hx, hphase⟩

theorem Holds.size_of_deferred (h : Holds env root forcing s) {d : Deferral} (hd : Event.deferred d ∈ s.history) :
    d.first + d.size ≤ s.size ∨ d.size = 0 := by
  by_cases hsize : d.size = 0
  · exact .inr hsize
  · have hlength : d.size - 1 < d.pendings.length := by rw [d.length_pendings]; omega
    have := (List.getElem?_eq_some_iff.1 (h.laid d hd _ _ (List.getElem?_eq_getElem hlength))).1
    rw [h.planned] at this
    exact .inl (by omega)

/-! ## Steps -/

theorem State.size_put (s : State) (i : Nat) (x : Slot Pending Judgment) : (s.put i x).size = s.size :=
  Array.size_setIfInBounds

/-- A slot that waits is being computed. -/
theorem Holds.force (h : Holds env root forcing s) {i : Nat} {p : Pending} (hslot : s.slot? i = some (.deferred p)) :
    Holds env root (i :: forcing) (s.put i .forcing) where
  planned := by rw [s.size_put]; exact h.planned
  phase k q hk := by
    obtain ⟨x, hx, hphase⟩ := h.phase k q hk
    by_cases hki : k = i
    · subst hki
      exact ⟨.forcing, State.slot?_put_self (State.lt_size hslot) _, List.mem_cons_self⟩
    · refine ⟨x, by rwa [State.slot?_put_ne hki], ?_⟩
      cases x with
      | reserved => exact hphase
      | deferred r => exact ⟨hphase.1, by simp [hki, hphase.2]⟩
      | forcing => exact List.mem_cons_of_mem _ hphase
      | forced J => exact ⟨by simp [hki, hphase.1], hphase.2⟩
  live k hk := by
    rw [s.size_put]
    rcases List.mem_cons.1 hk with rfl | hk
    · exact State.lt_size hslot
    · exact h.live k hk
  laid := h.laid
  placed := h.placed
  lawful := h.lawful
  looped := h.looped
  noted := h.noted
  known := h.known

/-- A slot that is being computed gets its judgment. -/
theorem Holds.finish {i : Nat} (h : Holds env root (i :: forcing) s) (hi : i ∉ forcing) {p : Pending}
    (hp : s.plan[i]? = some p) {J : Judgment} (hJ : Fulfils env (Told s.history) p J) :
    Holds env root forcing (s.put i (.forced J)) where
  planned := by rw [s.size_put]; exact h.planned
  phase k q hk := by
    obtain ⟨x, hx, hphase⟩ := h.phase k q hk
    by_cases hki : k = i
    · subst hki
      obtain rfl := Option.some.inj (hp.symm.trans hk)
      exact ⟨.forced J, State.slot?_put_self (State.lt_size hx) _, hi, hJ⟩
    · refine ⟨x, by rwa [State.slot?_put_ne hki], ?_⟩
      cases x with
      | reserved => exact hphase
      | deferred r => exact ⟨hphase.1, fun hmem => hphase.2 (List.mem_cons_of_mem _ hmem)⟩
      | forcing => exact (List.mem_cons.1 hphase).resolve_left hki
      | forced J' => exact ⟨fun hmem => hphase.1 (List.mem_cons_of_mem _ hmem), hphase.2⟩
  live k hk := by
    rw [s.size_put]
    exact h.live k (List.mem_cons_of_mem _ hk)
  laid := h.laid
  placed := h.placed
  lawful := h.lawful
  looped := h.looped
  noted := h.noted
  known := h.known

/-- The state after an event. -/
def State.after (s : State) (e : Event) : State := { s with history := e :: s.history }

/-- A judgment by the rules, or a loop on a cycle, is added to the history. -/
theorem Holds.after (h : Holds env root forcing s) {e : Event} (hdeferral : e.deferral? = none)
    (hjudged : ∀ ctx x J, e = .judged ctx x J → Follows env (Told s.history) ctx.scopes x.form J)
    (hlooped : ∀ ctx i, e = .looped ctx i → OnCycle s.history ctx.forcing i) : Holds env root forcing (s.after e) := by
  have hmem : ∀ e' ∈ s.history, e' ∈ (s.after e).history := fun _ he => List.mem_cons_of_mem _ he
  have hplan : (s.after e).plan = s.plan := by
    rw [State.plan, State.plan, State.after, List.filterMap_cons_none hdeferral]
  have hold : ∀ {d : Deferral}, Event.deferred d ∈ (s.after e).history → Event.deferred d ∈ s.history := by
    intro d hd
    rcases List.mem_cons.1 hd with rfl | hd
    · cases hdeferral
    · exact hd
  refine ⟨by rw [hplan]; exact h.planned, fun i p hp => ?_, h.live, fun d hd => ?_, fun d hd => ?_,
    fun ctx x J hJ => ?_,
    fun ctx i hi => ?_, fun i hi => ?_, h.known⟩
  · obtain ⟨x, hx, hphase⟩ := h.phase i p (hplan ▸ hp)
    exact ⟨x, hx, hphase.mono hmem⟩
  · rw [hplan]
    exact h.laid d (hold hd)
  · exact (h.placed d (hold hd)).mono hmem
  · refine Follows.mono (T := Told s.history) ?_ fun _ _ _ _ => Told.mono hmem
    rcases List.mem_cons.1 hJ with heq | hJ
    · exact hjudged ctx x J heq.symm
    · exact h.lawful ctx x J hJ
  · refine OnCycle.mono hmem ?_
    rcases List.mem_cons.1 hi with heq | hi
    · exact hlooped ctx i heq.symm
    · exact h.looped ctx i hi
  · obtain ⟨ctx, hctx⟩ := h.noted i hi
    exact ⟨ctx, hmem _ hctx⟩

namespace State
variable (s : State) (d : Deferral)

theorem size_deferred : (s.deferred d).size = s.size + d.size := by
  simp [size, deferred, ← d.length_pendings]

theorem slot?_deferred_of_lt {i : Nat} (h : i < s.size) : (s.deferred d).slot? i = s.slot? i :=
  Array.getElem?_append_left h

theorem slot?_deferred_of_ge {k : Nat} : (s.deferred d).slot? (s.size + k) = d.pendings[k]?.map .deferred := by
  have happend : (s.slots.slots ++ (d.pendings.map Slot.deferred).toArray)[s.size + k]? =
      (d.pendings.map Slot.deferred).toArray[s.size + k - s.slots.slots.size]? :=
    Array.getElem?_append_right (Nat.le_add_right s.size k)
  rw [slot?, deferred, happend]
  simp [size]

theorem plan_deferred : (s.deferred d).plan = s.plan ++ d.pendings := by
  rw [plan, plan, deferred, List.filterMap_cons_some (rfl : (Event.deferred d).deferral? = some d), List.reverse_cons,
    List.flatMap_append, List.flatMap_singleton]

theorem pool_deferred : (s.deferred d).pool = s.pool + (d.pendings.map Pending.worth).sum := by
  simp [pool, deferred, Function.comp_def, slotWorth]

end State

/-- A group is put off. -/
theorem Holds.defer (h : Holds env root forcing s) {d : Deferral} (hfirst : d.first = s.size)
    (hd : d.Placed env root s.history) : Holds env root forcing (s.deferred d) := by
  have hmem : ∀ e ∈ s.history, e ∈ (s.deferred d).history := fun _ he => List.mem_cons_of_mem _ he
  refine ⟨?_, fun i p hp => ?_, fun i hi => ?_, fun d' hd' k p hp => ?_, fun d' hd' => ?_, fun ctx e J hJ => ?_,
    fun ctx i hi => ?_, fun i hi => ?_, h.known⟩
  · rw [s.plan_deferred, s.size_deferred, List.length_append, h.planned, d.length_pendings]
  · rw [s.plan_deferred] at hp
    by_cases hlt : i < s.size
    · rw [List.getElem?_append_left (by rwa [h.planned])] at hp
      obtain ⟨x, hx, hphase⟩ := h.phase i p hp
      exact ⟨x, by rwa [s.slot?_deferred_of_lt d hlt], hphase.mono hmem⟩
    · rw [List.getElem?_append_right (by rw [h.planned]; omega), h.planned] at hp
      refine ⟨.deferred p, ?_, rfl, fun hi => hlt (h.live i hi)⟩
      rw [← Nat.add_sub_cancel' (Nat.le_of_not_lt hlt), s.slot?_deferred_of_ge, hp]
      rfl
  · rw [s.size_deferred]
    have := h.live i hi
    omega
  · rw [s.plan_deferred]
    rcases List.mem_cons.1 hd' with heq | hd'
    · cases heq
      rw [hfirst, ← h.planned, List.getElem?_append_right (Nat.le_add_right _ _), Nat.add_sub_cancel_left]
      exact hp
    · have hplan := h.laid d' hd' k p hp
      rwa [List.getElem?_append_left (List.getElem?_eq_some_iff.1 hplan).1]
  · rcases List.mem_cons.1 hd' with heq | hd'
    · cases heq
      exact hd.mono hmem
    · exact (h.placed d' hd').mono hmem
  · have hJ : Event.judged ctx e J ∈ s.history := (List.mem_cons.1 hJ).resolve_left (by simp)
    exact (h.lawful ctx e J hJ).mono fun _ _ _ _ => Told.mono hmem
  · have hi : Event.looped ctx i ∈ s.history := (List.mem_cons.1 hi).resolve_left (by simp)
    exact (h.looped ctx i hi).mono hmem
  · obtain ⟨ctx, hctx⟩ := h.noted i hi
    exact ⟨ctx, hmem _ hctx⟩

end Holds

end Judging

end NixTyping
