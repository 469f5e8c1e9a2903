import Mathlib
import NixTyping.Judge.Walk
import NixTyping.Proofs.Generation
/-!
# The walk judges the core language

A definition of the core language is judged where its name is first used, in the
midst of the judgment of another expression. `Effect s s' V F` keeps the books of a
run from `s` to `s'`: it issued the variables `V` for the expression itself, and for
each slot of `F` it judged the definition that waited there, with variables of its
own. At the end of a `let` the slot of its definition is among those judged, and its
variables are taken over into the judgment of the `let`.

`Adequate env depth` says that runs of the given depth succeed where the names are
bound and the depth is not less than the work that is left; it holds for every
depth (`adequate`). So a closed expression of the core language has a judgment in
the sense of `Judges` (`Expr.judge_core`).
-/

namespace NixTyping

/-! ## Sizes and names of expressions -/

namespace Expr

theorem all_eq (e : Expr) : e.all = e :: e.parts.flatMap all := by
  rw [all, List.flatMap_def, List.flatMap_def, List.attach_map_val]

theorem length_all (e : Expr) : e.all.length = 1 + (e.parts.map fun p => p.all.length).sum := by
  rw [all_eq, List.length_cons, List.length_flatMap, Nat.add_comm]

theorem mem_mentioned_of_part {e p : Expr} (hp : p ∈ e.parts) {x : String} (hx : x ∈ p.mentioned) :
    x ∈ e.mentioned := by
  rw [mentioned, List.mem_append, List.mem_flatMap]
  exact .inr ⟨⟨p, hp⟩, List.mem_attach _ _, hx⟩

/-- Only the names that an expression mentions need to be bound. -/
theorem Core.restrict {bound bound' : List String} {e : Expr} (h : e.Core bound)
    (hb : ∀ x ∈ bound, x ∈ e.mentioned → x ∈ bound') : e.Core bound' := by
  induction h generalizing bound' with
  | literal core => exact .literal core
  | ref mem => exact .ref (hb _ mem (by rw [mentioned]; simp [form]))
  | @lambda bound id span x b body ih =>
    refine .lambda (ih fun y hy hm => ?_)
    rcases List.mem_cons.1 hy with rfl | hy
    · exact List.mem_cons_self
    · exact List.mem_cons_of_mem _ (hb y hy (mem_mentioned_of_part (by simp [parts, form, Form.parts]) hm))
  | apply _ _ ihFn ihArg =>
    refine .apply (ihFn fun y hy hm => hb y hy (mem_mentioned_of_part ?_ hm))
      (ihArg fun y hy hm => hb y hy (mem_mentioned_of_part ?_ hm)) <;> simp [parts, form, Form.parts]
  | ifElse _ _ _ ihCond ihYes ihNo =>
    refine .ifElse (ihCond fun y hy hm => hb y hy (mem_mentioned_of_part ?_ hm))
      (ihYes fun y hy hm => hb y hy (mem_mentioned_of_part ?_ hm))
      (ihNo fun y hy hm => hb y hy (mem_mentioned_of_part ?_ hm)) <;> simp [parts, form, Form.parts]
  | @letIn bound id span x d b _ fresh _ ihDef ihBody =>
    refine .letIn (ihDef fun y hy hm => hb y hy (mem_mentioned_of_part ?_ hm)) fresh (ihBody fun y hy hm => ?_)
    · simp [parts, form, Form.parts, Bindings.parts, Binding.expr?]
    · rcases List.mem_cons.1 hy with rfl | hy
      · exact List.mem_cons_self
      · exact List.mem_cons_of_mem _ (hb y hy (mem_mentioned_of_part (by simp [parts, form, Form.parts]) hm))

end Expr

namespace Judging

/-! ## Runs -/

/-- The computation succeeds. -/
def Runs {α : Type} (m : Judging α) (s : State) (a : α) (s' : State) : Prop := m.run s = .ok (a, s')

section Runs
variable {α β : Type} {m : Judging α} {f : α → Judging β} {a : α} {b : β} {s s₁ s₂ : State}

theorem runs_pure (a : α) (s : State) : Runs (pure a) s a s := rfl

theorem Runs.bind (h : Runs m s a s₁) (h' : Runs (f a) s₁ b s₂) : Runs (m >>= f) s b s₂ := by
  show (StateT.bind m f).run s = .ok (b, s₂)
  rw [StateT.run, StateT.bind]
  have hm : m s = .ok (a, s₁) := h
  rw [hm]
  exact h'

theorem runs_mapM_singleton {g : α → Judging β} (h : Runs (g a) s b s₁) : Runs ([a].mapM g) s [b] s₁ :=
  h.bind (runs_pure [b] s₁)

theorem runs_get (s : State) : Runs get s s s := rfl

theorem runs_modify (g : State → State) (s : State) : Runs (modify g) s () (g s) := rfl

theorem runs_fresh (s : State) : Runs fresh s s.next { s with next := s.next + 1 } := rfl

theorem runs_freshTy (s : State) : Runs freshTy s (.var s.next) { s with next := s.next + 1 } := rfl

theorem runs_changeSlots {g : Slots Pending Judgment → Except SlotError (Slots Pending Judgment)}
    {slots : Slots Pending Judgment} (h : g s.slots = .ok slots) : Runs (changeSlots g) s () { s with slots } := by
  refine (runs_get s).bind ?_
  rw [h]
  exact runs_modify _ s

end Runs

/-! ## Slots -/

namespace State

variable {s : State} {i k : Nat}

def slot? (s : State) (i : Nat) : Option (Slot Pending Judgment) := s.slots.slots[i]?

/-- The number of slots. -/
def size (s : State) : Nat := s.slots.slots.size

def put (s : State) (i : Nat) (x : Slot Pending Judgment) : State := { s with slots := s.slots.put i x }

def push (s : State) (x : Slot Pending Judgment) : State := { s with slots := ⟨s.slots.slots.push x⟩ }

/-- The state in which it is told that a `let` with one binding was put off. -/
def told (s : State) (ctx : Context) (x : String) (d : Expr) : State :=
  { s with history := .deferred ⟨ctx, ⟨[(x, .expr d)], [], []⟩, s.size⟩ :: s.history }

theorem slot?_put_self (h : i < s.size) (x : Slot Pending Judgment) : (s.put i x).slot? i = some x :=
  Array.getElem?_setIfInBounds_self_of_lt h

theorem slot?_put_ne (h : k ≠ i) (x : Slot Pending Judgment) : (s.put i x).slot? k = s.slot? k :=
  Array.getElem?_setIfInBounds_ne h.symm

theorem slot?_push_self (s : State) (x : Slot Pending Judgment) : (s.push x).slot? s.size = some x :=
  Array.getElem?_push_size

theorem slot?_push_ne (h : k ≠ s.size) (x : Slot Pending Judgment) : (s.push x).slot? k = s.slot? k :=
  Array.getElem?_push.trans (if_neg h)

theorem put_push (s : State) (x y : Slot Pending Judgment) : (s.push x).put s.size y = s.push y := by
  have harray : (s.slots.slots.push x).setIfInBounds s.slots.slots.size y = s.slots.slots.push y := by
    rw [← Array.toList_inj]
    simp
  rw [put, push, push, Slots.put, size, harray]

theorem lt_size {x : Slot Pending Judgment} (h : s.slot? i = some x) : i < s.size :=
  (Array.getElem?_eq_some_iff.1 h).1

end State

/-- How deeply the judgment of a definition can be nested, from its slot on. -/
def work (d : Expr) : Nat := 2 * d.all.length + 1

def slotWork : Slot Pending Judgment → Nat
  | .deferred ⟨_, _, .expr d⟩ => work d
  | _ => 0

/-- The work of all definitions that wait. -/
def State.work (s : State) : Nat := (s.slots.slots.toList.map slotWork).sum

theorem sum_map_set {α M : Type} [AddCommMonoid M] (f : α → M) {l : List α} {i : Nat} {y : α} (h : l[i]? = some y)
    (x : α) : ((l.set i x).map f).sum + f y = (l.map f).sum + f x := by
  induction l generalizing i with
  | nil => simp at h
  | cons z l ih =>
    cases i with
    | zero =>
      obtain rfl : z = y := by simpa using h
      simp only [List.set_cons_zero, List.map_cons, List.sum_cons]
      rw [add_right_comm, add_comm (f x), add_right_comm]
    | succ i =>
      have := ih (i := i) (by simpa using h)
      simp only [List.set_cons_succ, List.map_cons, List.sum_cons]
      rw [add_assoc, this, add_assoc]

theorem State.work_put {s : State} {i : Nat} {y : Slot Pending Judgment} (h : s.slot? i = some y)
    (x : Slot Pending Judgment) : (s.put i x).work + slotWork y = s.work + slotWork x := by
  have hlist : s.slots.slots.toList[i]? = some y := by rwa [Array.getElem?_toList]
  rw [State.work, State.put, Slots.put, Array.toList_setIfInBounds]
  exact sum_map_set slotWork hlist x

theorem State.work_push (s : State) (x : Slot Pending Judgment) : (s.push x).work = s.work + slotWork x := by
  simp [State.work, State.push]

/-! ## What a run does -/

/-- A slot whose definition was judged, with the variables issued for that. -/
structure ForcedSlot where
  slot : Nat
  definition : Expr
  judgment : Judgment
  vars : List Nat

/-- The run issued the variables `V` and judged the slots `F`; other slots are as they
were, and no slot waits that did not wait before. -/
structure Effect (s s' : State) (V : List Nat) (F : List ForcedSlot) : Prop where
  next : s.next ≤ s'.next
  issued : ∀ v ∈ V ++ F.flatMap (·.vars), s.next ≤ v ∧ v < s'.next
  nodup : (V ++ F.flatMap (·.vars)).Nodup
  once : (F.map (·.slot)).Nodup
  forced : ∀ f ∈ F, s'.slot? f.slot = some (.forced f.judgment) ∧ ∃ scopes mono,
    s.slot? f.slot = some (.deferred ⟨scopes, mono, .expr f.definition⟩) ∧ Judges mono f.definition f.judgment f.vars
  kept : ∀ i x, s.slot? i = some x → i ∉ F.map (·.slot) → s'.slot? i = some x
  waiting : ∀ i p, s'.slot? i = some (.deferred p) → s.slot? i = some (.deferred p)
  work : s'.work + (F.map fun f => Judging.work f.definition).sum = s.work

namespace Effect
variable {s s₁ s₂ : State} {V V₁ V₂ : List Nat} {F F₁ F₂ : List ForcedSlot}

theorem refl (s : State) : Effect s s [] [] where
  next := Nat.le_refl _
  issued _ hv := (nomatch hv)
  nodup := .nil
  once := .nil
  forced _ hf := (nomatch hf)
  kept _ _ h _ := h
  waiting _ _ h := h
  work := rfl

theorem fresh (s : State) : Effect s { s with next := s.next + 1 } [s.next] [] where
  next := Nat.le_succ _
  issued v hv := by
    obtain rfl : v = s.next := by simpa using hv
    exact ⟨Nat.le_refl _, Nat.lt_succ_self _⟩
  nodup := by simp
  once := .nil
  forced _ hf := (nomatch hf)
  kept _ _ h _ := h
  waiting _ _ h := h
  work := rfl

theorem work_le (h : Effect s s₁ V F) : s₁.work ≤ s.work := by
  have := h.work
  omega

theorem size_le (h : Effect s s₁ V F) : s.size ≤ s₁.size := by
  by_contra hlt
  obtain ⟨x, hx⟩ : ∃ x, s.slot? s₁.size = some x := ⟨_, Array.getElem?_eq_getElem (Nat.lt_of_not_le hlt)⟩
  by_cases hmem : s₁.size ∈ F.map (·.slot)
  · obtain ⟨f, hf, he⟩ := List.mem_map.1 hmem
    exact Nat.lt_irrefl _ (he ▸ State.lt_size (h.forced f hf).1)
  · exact Nat.lt_irrefl _ (State.lt_size (h.kept _ x hx hmem))

/-- A slot that was judged was not finished before. -/
theorem not_mem_of_forced (h : Effect s s₁ V F) {i : Nat} (hi : ∀ p, s.slot? i ≠ some (.deferred p)) :
    i ∉ F.map (·.slot) := by
  intro hmem
  obtain ⟨f, hf, rfl⟩ := List.mem_map.1 hmem
  obtain ⟨-, scopes, mono, hslot, -⟩ := h.forced f hf
  exact hi _ hslot

theorem trans (h : Effect s s₁ V₁ F₁) (h' : Effect s₁ s₂ V₂ F₂) : Effect s s₂ (V₁ ++ V₂) (F₁ ++ F₂) := by
  -- what the first run has judged does not wait for the second
  have hapart : ∀ i ∈ F₁.map (·.slot), i ∉ F₂.map (·.slot) := by
    intro i hi
    obtain ⟨f, hf, rfl⟩ := List.mem_map.1 hi
    refine h'.not_mem_of_forced fun p hp => ?_
    rw [(h.forced f hf).1] at hp
    cases hp
  have hperm : List.Perm ((V₁ ++ V₂) ++ (F₁ ++ F₂).flatMap (·.vars))
      ((V₁ ++ F₁.flatMap (·.vars)) ++ (V₂ ++ F₂.flatMap (·.vars))) := by
    rw [List.flatMap_append, List.append_assoc, List.append_assoc, ← List.append_assoc V₂,
      ← List.append_assoc (F₁.flatMap _)]
    exact (List.perm_append_comm.append_right _).append_left _
  have hle := h.next
  have hle' := h'.next
  refine ⟨by omega, fun v hv => ?_, ?_, ?_, fun f hf => ?_, fun i x hi hF => ?_, fun i p hp => ?_, ?_⟩
  · rcases List.mem_append.1 (hperm.mem_iff.1 hv) with hv | hv
    · have := h.issued v hv
      omega
    · have := h'.issued v hv
      omega
  · refine hperm.nodup_iff.2 (List.nodup_append.2 ⟨h.nodup, h'.nodup, fun v hv w hw => ?_⟩)
    have := h.issued v hv
    have := h'.issued w hw
    omega
  · rw [List.map_append]
    exact List.nodup_append.2 ⟨h.once, h'.once, fun i hi k hk he => hapart i hi (he ▸ hk)⟩
  · rcases List.mem_append.1 hf with hf | hf
    · obtain ⟨hforced, hbefore⟩ := h.forced f hf
      exact ⟨h'.kept _ _ hforced (hapart _ (List.mem_map_of_mem hf)), hbefore⟩
    · obtain ⟨hforced, scopes, mono, hwait, hJ⟩ := h'.forced f hf
      exact ⟨hforced, scopes, mono, h.waiting _ _ hwait, hJ⟩
  · rw [List.map_append, List.mem_append, not_or] at hF
    exact h'.kept i x (h.kept i x hi hF.1) hF.2
  · exact h.waiting i p (h'.waiting i p hp)
  · have := h.work
    have := h'.work
    rw [List.map_append, List.sum_append]
    omega

section Definition
variable {i : Nat} {scopes : List Scope} {mono : VarSet} {d : Expr} {J : Judgment}

/-- What is done for the definition of a slot is done by the run that judges the slot. -/
theorem force (hslot : s.slot? i = some (.deferred ⟨scopes, mono, .expr d⟩)) (h : Effect (s.put i .forcing) s₁ V F)
    (hJ : Judges mono d J V) :
    s₁.slot? i = some .forcing ∧ Effect s (s₁.put i (.forced J)) [] (⟨i, d, J, V⟩ :: F) := by
  have hself : (s.put i .forcing).slot? i = some .forcing := State.slot?_put_self (State.lt_size hslot) _
  have hnot : i ∉ F.map (·.slot) := h.not_mem_of_forced fun p hp => by rw [hself] at hp; cases hp
  have hforcing : s₁.slot? i = some .forcing := h.kept i _ hself hnot
  refine ⟨hforcing, h.next, h.issued, h.nodup, List.nodup_cons.2 ⟨hnot, h.once⟩, fun f hf => ?_, fun k x hk hF => ?_,
    fun k p hp => ?_, ?_⟩
  · rcases List.mem_cons.1 hf with rfl | hf
    · exact ⟨State.slot?_put_self (State.lt_size hforcing) _, scopes, mono, hslot, hJ⟩
    · have hne : f.slot ≠ i := fun he => hnot (he ▸ List.mem_map_of_mem hf)
      obtain ⟨hforced, scopes', mono', hwait, hJ'⟩ := h.forced f hf
      rw [State.slot?_put_ne hne] at hwait ⊢
      exact ⟨hforced, scopes', mono', hwait, hJ'⟩
  · rw [List.map_cons, List.mem_cons, not_or] at hF
    rw [State.slot?_put_ne hF.1]
    exact h.kept k x (by rwa [State.slot?_put_ne hF.1]) hF.2
  · have hne : k ≠ i := by
      rintro rfl
      rw [State.slot?_put_self (State.lt_size hforcing)] at hp
      cases hp
    rw [State.slot?_put_ne hne] at hp
    have := h.waiting k p hp
    rwa [State.slot?_put_ne hne] at this
  · have hbefore : (s.put i .forcing).work + Judging.work d = s.work + 0 := State.work_put hslot .forcing
    have hafter : (s₁.put i (.forced J)).work + 0 = s₁.work + 0 := State.work_put hforcing (.forced J)
    have := h.work
    simp only [List.map_cons, List.sum_cons]
    omega

/-- A run that has judged the slot of a definition has done so among others; the
variables of the definition then count as variables of the `let`. -/
theorem letIn (h : Effect (s.push (.deferred ⟨scopes, mono, .expr d⟩)) s₁ V F)
    (hforced : s₁.slot? s.size = some (.forced J)) :
    ∃ W F', Judges mono d J W ∧ Effect s s₁ (W ++ V) F' := by
  have hself := s.slot?_push_self (.deferred ⟨scopes, mono, .expr d⟩)
  -- the new slot waits at first, so it is this run that has judged it
  have hmem : s.size ∈ F.map (·.slot) := by
    by_contra hnot
    cases hforced.symm.trans (h.kept _ _ hself hnot)
  obtain ⟨f, hf, hfslot⟩ := List.mem_map.1 hmem
  obtain ⟨F₁, F₂, rfl⟩ := List.append_of_mem hf
  obtain ⟨hfforced, scopes', mono', hwait, hJ⟩ := h.forced f hf
  rw [hfslot] at hfforced hwait
  obtain rfl : f.judgment = J := by cases hfforced.symm.trans hforced; rfl
  obtain ⟨rfl, rfl, rfl⟩ : scopes' = scopes ∧ mono' = mono ∧ f.definition = d := by
    cases hwait.symm.trans hself
    exact ⟨rfl, rfl, rfl⟩
  have hperm : List.Perm (F₁ ++ f :: F₂) (f :: (F₁ ++ F₂)) := List.perm_middle
  have hvars : List.Perm (V ++ (F₁ ++ f :: F₂).flatMap (·.vars)) ((f.vars ++ V) ++ (F₁ ++ F₂).flatMap (·.vars)) := by
    refine ((hperm.flatMap_right _).append_left V).trans ?_
    rw [List.flatMap_cons, ← List.append_assoc]
    exact List.perm_append_comm.append_right _
  have honce : ((f :: (F₁ ++ F₂)).map (·.slot)).Nodup := (hperm.map _).nodup_iff.1 h.once
  rw [List.map_cons, List.nodup_cons, hfslot] at honce
  refine ⟨f.vars, F₁ ++ F₂, hJ, h.next, fun v hv => h.issued v (hvars.mem_iff.2 hv), hvars.nodup_iff.1 h.nodup, honce.2,
    fun g hg => ?_, fun k x hk hF => ?_, fun k p hp => ?_, ?_⟩
  · have hne : g.slot ≠ s.size := fun he => honce.1 (he ▸ List.mem_map_of_mem hg)
    have hg := h.forced g (hperm.mem_iff.2 (List.mem_cons_of_mem f hg))
    rwa [State.slot?_push_ne hne] at hg
  · have hne : k ≠ s.size := Nat.ne_of_lt (State.lt_size hk)
    refine h.kept k x (by rwa [State.slot?_push_ne hne]) fun hmem => ?_
    rcases List.mem_cons.1 ((hperm.map (·.slot)).mem_iff.1 hmem) with he | hmem
    · exact hne (he.trans hfslot)
    · exact hF hmem
  · have hne : k ≠ s.size := by
      rintro rfl
      cases hforced.symm.trans hp
    have := h.waiting k p hp
    rwa [State.slot?_push_ne hne] at this
  · have hpush : (s.push (.deferred ⟨scopes', mono', .expr f.definition⟩)).work = s.work + Judging.work f.definition :=
      s.work_push _
    have hsum := (hperm.map fun f : ForcedSlot => Judging.work f.definition).sum_nat
    have := h.work
    simp only [List.map_cons, List.sum_cons] at hsum
    omega

end Definition

end Effect

/-! ## Names and the slots behind them -/

/-- The innermost binding of a name. -/
def lexicalIn (scopes : List Scope) (x : String) : Option Lexical := scopes.findSome? (·.lexical? x)

/-- The name is a parameter, or bound by a `let` to one of the first `n` slots. -/
def BoundIn (n : Nat) (scopes : List Scope) (x : String) : Prop :=
  lexicalIn scopes x = some .param ∨ ∃ k mono, lexicalIn scopes x = some (.letBody k mono) ∧ k < n

/-- A slot that can be judged: it is, at a plain type, or a definition of the core
language waits there, with names bound to earlier slots that can be judged. -/
inductive Ready (s : State) : Nat → Prop where
  | forced {k : Nat} {J : Judgment} (slot : s.slot? k = some (.forced J)) (plain : J.ty.Plain) : Ready s k
  | deferred {k : Nat} {scopes : List Scope} {mono : VarSet} {d : Expr} {bound : List String}
    (slot : s.slot? k = some (.deferred ⟨scopes, mono, .expr d⟩)) (core : d.Core bound)
    (names : ∀ x ∈ bound, BoundIn k scopes x)
    (ready : ∀ x ∈ bound, ∀ k' mono, lexicalIn scopes x = some (.letBody k' mono) → Ready s k') : Ready s k

/-- The names are bound, to slots that can be judged. -/
structure Sees (s : State) (n : Nat) (scopes : List Scope) (bound : List String) : Prop where
  names : ∀ x ∈ bound, BoundIn n scopes x
  ready : ∀ x ∈ bound, ∀ k mono, lexicalIn scopes x = some (.letBody k mono) → Ready s k

section Sees
variable {s s' : State} {n n' k : Nat} {scopes : List Scope} {bound bound' : List String} {x : String} {V : List Nat}
  {F : List ForcedSlot}

/-- Whether a slot is ready depends on no later slot. -/
theorem Ready.congr (h : Ready s k) (hs : ∀ i, i ≤ k → s'.slot? i = s.slot? i) : Ready s' k := by
  induction h with
  | forced slot plain => exact .forced ((hs _ (Nat.le_refl _)).trans slot) plain
  | deferred slot core names ready ih =>
    refine .deferred ((hs _ (Nat.le_refl _)).trans slot) core names fun x hx k' mono hk' => ?_
    refine ih x hx k' mono hk' fun i hi => hs i ?_
    -- names lead to earlier slots only
    rcases names x hx with hparam | ⟨k'', mono', hlet, hlt⟩
    · cases hparam.symm.trans hk'
    · cases hlet.symm.trans hk'
      omega

theorem Ready.effect (h : Ready s k) (heffect : Effect s s' V F) : Ready s' k := by
  induction h with
  | @forced k J slot plain =>
    refine .forced (heffect.kept k _ slot (heffect.not_mem_of_forced fun p hp => ?_)) plain
    cases slot.symm.trans hp
  | @deferred k scopes mono d bound slot core names ready ih =>
    by_cases hmem : k ∈ F.map (·.slot)
    · obtain ⟨f, hf, rfl⟩ := List.mem_map.1 hmem
      obtain ⟨hforced, _, _, -, hJ⟩ := heffect.forced f hf
      exact .forced hforced hJ.ty.1
    · exact .deferred (heffect.kept k _ slot hmem) core names ih

theorem Sees.effect (h : Sees s n scopes bound) (heffect : Effect s s' V F) : Sees s' n scopes bound where
  names := h.names
  ready x hx k mono hk := (h.ready x hx k mono hk).effect heffect

/-- What names see depends on no slot beyond the first `n`. -/
theorem Sees.congr (h : Sees s n scopes bound) (hs : ∀ i, i < n → s'.slot? i = s.slot? i) : Sees s' n scopes bound := by
  refine ⟨h.names, fun x hx k mono hk => (h.ready x hx k mono hk).congr fun i hi => hs i ?_⟩
  rcases h.names x hx with hparam | ⟨k', mono', hlet, hlt⟩
  · cases hparam.symm.trans hk
  · cases hlet.symm.trans hk
    omega

theorem Sees.mono (h : Sees s n scopes bound) (hn : n ≤ n') : Sees s n' scopes bound where
  names x hx := (h.names x hx).imp_right fun ⟨k, mono, hk, hlt⟩ => ⟨k, mono, hk, Nat.lt_of_lt_of_le hlt hn⟩
  ready := h.ready

theorem lexicalIn_of_none {sc : Scope} (h : sc.lexical? x = none) (scopes : List Scope) :
    lexicalIn (sc :: scopes) x = lexicalIn scopes x := by
  rw [lexicalIn, List.findSome?_cons, h]
  rfl

theorem lexicalIn_of_some {sc : Scope} {l : Lexical} (h : sc.lexical? x = some l) (scopes : List Scope) :
    lexicalIn (sc :: scopes) x = some l := by
  rw [lexicalIn, List.findSome?_cons, h]

/-- A scope that binds none of the names is seen through. -/
theorem Sees.skip (h : Sees s n scopes bound) {sc : Scope} (hsc : ∀ x ∈ bound', x ∈ bound ∧ sc.lexical? x = none) :
    Sees s n (sc :: scopes) bound' := by
  refine ⟨fun x hx => ?_, fun x hx k mono hk => ?_⟩
  · rw [BoundIn, lexicalIn_of_none (hsc x hx).2]
    exact h.names x (hsc x hx).1
  · rw [lexicalIn_of_none (hsc x hx).2] at hk
    exact h.ready x (hsc x hx).1 k mono hk

/-- A scope that binds one name adds it to those seen. -/
theorem Sees.enter (h : Sees s n scopes bound) {sc : Scope} {l : Lexical} (hx : sc.lexical? x = some l)
    (hne : ∀ y, y ≠ x → sc.lexical? y = none) (hl : l = .param ∨ ∃ k mono, l = .letBody k mono ∧ k < n ∧ Ready s k) :
    Sees s n (sc :: scopes) (x :: bound) := by
  refine ⟨fun y hy => ?_, fun y hy k mono hk => ?_⟩
  · by_cases hyx : y = x
    · subst hyx
      rw [BoundIn, lexicalIn_of_some hx]
      rcases hl with rfl | ⟨k, mono, rfl, hlt, -⟩
      · exact .inl rfl
      · exact .inr ⟨k, mono, rfl, hlt⟩
    · rw [BoundIn, lexicalIn_of_none (hne y hyx)]
      exact h.names y ((List.mem_cons.1 hy).resolve_left hyx)
  · by_cases hyx : y = x
    · subst hyx
      rw [lexicalIn_of_some hx] at hk
      obtain rfl := Option.some.inj hk
      rcases hl with hl | ⟨k', mono', hl, -, hready⟩
      · cases hl
      · cases hl
        exact hready
    · rw [lexicalIn_of_none (hne y hyx)] at hk
      exact h.ready y ((List.mem_cons.1 hy).resolve_left hyx) k mono hk

end Sees

/-! ## The walk -/

section Force
variable {run : Runner} {ctx : Context} {i : Nat} {s : State} {J : Judgment}

/-- A slot that is judged is read. -/
theorem runs_force_forced (hslot : s.slot? i = some (.forced J)) : Runs (force run ctx i) s J s := by
  have hstart : s.slots.start i = .ok (.ready J, s.slots) := by
    rw [Slots.start]
    rw [show s.slots.slots[i]? = some (.forced J) from hslot]
  refine (runs_get s).bind ?_
  rw [hstart]
  exact runs_pure J s

/-- The expression of a slot is judged in the scopes that it was put off with. -/
theorem runs_force_deferred {scopes : List Scope} {mono : VarSet} {d : Expr} {s₁ : State}
    (hslot : s.slot? i = some (.deferred ⟨scopes, mono, .expr d⟩))
    (hrun : Runs (run ⟨scopes, mono, i :: ctx.forcing⟩ (.expr d)) (s.put i .forcing) J s₁)
    (hforcing : s₁.slot? i = some .forcing) : Runs (force run ctx i) s J (s₁.put i (.forced J)) := by
  have hstart : s.slots.start i = .ok (.pending ⟨scopes, mono, .expr d⟩, s.slots.put i .forcing) := by
    rw [Slots.start]
    rw [show s.slots.slots[i]? = some (.deferred ⟨scopes, mono, .expr d⟩) from hslot]
  have hfinish : s₁.slots.finish i J = .ok (s₁.slots.put i (.forced J)) := by
    rw [Slots.finish]
    rw [show s₁.slots.slots[i]? = some .forcing from hforcing]
  refine (runs_get s).bind ?_
  rw [hstart]
  exact (runs_modify _ s).bind (hrun.bind ((runs_changeSlots hfinish).bind (runs_pure J _)))

end Force

/-- A run that judges an expression. -/
def Judged (m : Judging Judgment) (mono : VarSet) (e : Expr) (s : State) : Prop :=
  ∃ J s' V F, Runs m s J s' ∧ Judges mono e J V ∧ Effect s s' V F

/-- To record what was judged changes nothing else. -/
theorem Judged.recorded {m : Judging Judgment} {mono : VarSet} {e : Expr} {s : State} (ctx : Context)
    (h : Judged m mono e s) : Judged (do let j ← m; record fun _ => .judged ctx e j; return j) mono e s := by
  obtain ⟨J, s', V, F, hrun, hJ, heffect⟩ := h
  exact ⟨J, { s' with history := .judged ctx e J :: s'.history }, V, F,
    hrun.bind ((runs_modify _ s').bind (runs_pure J _)), hJ, { heffect with }⟩

/-- A run that judges the definition of a slot, unless that is done. -/
def ForcedBy (m : Judging Judgment) (i : Nat) (s : State) : Prop :=
  ∃ J s' F, Runs m s J s' ∧ Effect s s' [] F ∧ s'.slot? i = some (.forced J) ∧ J.ty.Plain

/-- Runs of a depth that covers the work succeed. -/
structure Adequate (env : Env) (depth : Nat) : Prop where
  expr : ∀ (ctx : Context) {e : Expr} {s : State} {n : Nat} {bound : List String}, e.Core bound →
    Sees s n ctx.scopes bound → n ≤ s.size → 2 * e.all.length + s.work ≤ depth →
    Judged (runTo env depth ctx (.expr e)) ctx.mono e s
  force : ∀ (ctx : Context) {i : Nat} {s : State}, Ready s i → s.work + 1 ≤ depth →
    ForcedBy (runTo env depth ctx (.force i)) i s

namespace Adequate
variable {env : Env} {depth : Nat} {ctx : Context} {s : State} {n : Nat} {bound : List String}

theorem force_succ (h : Adequate env depth) {i : Nat} (hready : Ready s i) (hdepth : s.work + 1 ≤ depth + 1) :
    ForcedBy (runTo env (depth + 1) ctx (.force i)) i s := by
  cases hready with
  | @forced _ J slot plain => exact ⟨J, s, [], runs_force_forced slot, .refl s, slot, plain⟩
  | @deferred _ scopes mono d bound slot core names ready =>
    have hsees : Sees (s.put i .forcing) i scopes bound :=
      Sees.congr ⟨names, ready⟩ fun k hk => State.slot?_put_ne (Nat.ne_of_lt hk) _
    have hwork : (s.put i .forcing).work + work d = s.work + 0 := State.work_put slot .forcing
    have hsize : i ≤ (s.put i .forcing).size := by
      have := State.lt_size (State.slot?_put_self (State.lt_size slot) .forcing)
      omega
    have hjudged : Judged (runTo env depth ⟨scopes, mono, i :: ctx.forcing⟩ (.expr d)) mono d (s.put i .forcing) := by
      refine h.expr _ core hsees hsize ?_
      unfold work at hwork
      omega
    obtain ⟨J, s₁, V, F, hrun, hJ, heffect⟩ := hjudged
    obtain ⟨hforcing, heffect⟩ := heffect.force slot hJ
    exact ⟨J, s₁.put i (.forced J), _, runs_force_deferred slot hrun hforcing, heffect,
      State.slot?_put_self (State.lt_size hforcing) _, hJ.ty.1⟩

section Expr
variable {id : Nat} {span : Option Span} {x : String}

/-- A use of a binding issues one variable, and has its definition judged. -/
theorem runs_letBound (h : Adequate env depth) {i : Nat} (mono : VarSet) (hready : Ready s i)
    (hdepth : s.work + 1 ≤ depth) :
    ∃ t s' F, Runs (letBound (runTo env depth) ctx i mono) s (s.next, t) s' ∧ Effect s s' [s.next] F := by
  obtain ⟨J, s', F, hrun, heffect, -, hplain⟩ := h.force ctx (hready.effect (.fresh s)) hdepth
  refine ⟨J.ty, s', F, (runs_fresh s).bind (hrun.bind ?_), (Effect.fresh s).trans heffect⟩
  -- a plain type is no record to be remembered
  generalize J.ty = t at hplain ⊢
  cases hplain <;> exact runs_pure _ _

theorem ref (h : Adequate env depth) (hsees : Sees s n ctx.scopes bound) (hx : x ∈ bound)
    (hdepth : s.work + 1 ≤ depth) :
    Judged (reference env (runTo env depth) ctx x) ctx.mono (.mk id span (.ref x)) s := by
  have hlexical : ctx.lexical? x = lexicalIn ctx.scopes x := rfl
  unfold reference
  rw [hlexical]
  rcases hsees.names x hx with hparam | ⟨k, mono, hlet, -⟩
  · rw [hparam]
    exact ⟨_, _, [s.next], [], (runs_freshTy s).bind (runs_pure _ _), .ref x s.next, .fresh s⟩
  · rw [hlet]
    obtain ⟨t, s', F, hrun, heffect⟩ := h.runs_letBound mono (hsees.ready x hx k mono hlet) hdepth
    exact ⟨_, s', [s.next], F, hrun.bind (runs_pure _ _), .ref x s.next, heffect⟩

theorem lambda {b : Expr} (h : Adequate env depth) (hb : b.Core (x :: bound)) (hsees : Sees s n ctx.scopes bound)
    (hn : n ≤ s.size) (hdepth : 2 * b.all.length + s.work ≤ depth) :
    Judged (Judging.lambda (runTo env depth) ctx b (.name x)) ctx.mono (.mk id span (.lambda (.name x) b)) s := by
  have hinner : Sees { s with next := s.next + 1 } n (.params [x] :: ctx.scopes) (x :: bound) := by
    refine (hsees.effect (.fresh s)).enter (l := .param) ?_ (fun y hy => ?_) (.inl rfl)
    · simp [Scope.lexical?]
    · simp [Scope.lexical?, hy]
  have hjudged : Judged (runTo env depth ((ctx.fix [s.next]).enter (.params [x])) (.expr b)) (ctx.mono.insert s.next) b
      { s with next := s.next + 1 } := h.expr _ hb hinner hn hdepth
  obtain ⟨J, s', V, F, hrun, hJ, heffect⟩ := hjudged
  exact ⟨_, s', s.next :: V, F, (runs_fresh s).bind (hrun.bind (runs_pure _ _)), .lambda hJ,
    (Effect.fresh s).trans heffect⟩

theorem apply {f a : Expr} (h : Adequate env depth) (hf : f.Core bound) (ha : a.Core bound)
    (hsees : Sees s n ctx.scopes bound) (hn : n ≤ s.size)
    (hdepth : 2 * (f.all.length + a.all.length) + s.work ≤ depth) :
    Judged (expression env (runTo env depth) ctx (.apply f a)) ctx.mono (.mk id span (.apply f a)) s := by
  obtain ⟨Jf, s₁, Vf, Ff, hrunf, hJf, hf⟩ := h.expr ctx hf hsees hn (by omega)
  have := hf.work_le
  have := hf.size_le
  obtain ⟨Ja, s₂, Va, Fa, hruna, hJa, ha⟩ := h.expr ctx ha (hsees.effect hf) (by omega) (by omega)
  exact ⟨_, _, Vf ++ Va ++ [s₂.next], _, hrunf.bind (hruna.bind ((runs_freshTy s₂).bind (runs_pure _ _))),
    .apply hJf hJa, (hf.trans ha).trans (.fresh s₂)⟩

theorem ifElse {c y no : Expr} (h : Adequate env depth) (hc : c.Core bound) (hy : y.Core bound) (hno : no.Core bound)
    (hsees : Sees s n ctx.scopes bound) (hn : n ≤ s.size)
    (hdepth : 2 * (c.all.length + y.all.length + no.all.length) + s.work ≤ depth) :
    Judged (expression env (runTo env depth) ctx (.ifElse c y no)) ctx.mono (.mk id span (.ifElse c y no)) s := by
  obtain ⟨Jc, s₁, Vc, Fc, hrunc, hJc, hc⟩ := h.expr ctx hc hsees hn (by omega)
  have := hc.work_le
  have := hc.size_le
  obtain ⟨Jy, s₂, Vy, Fy, hruny, hJy, hy⟩ := h.expr ctx hy (hsees.effect hc) (by omega) (by omega)
  have := hy.work_le
  have := hy.size_le
  obtain ⟨Jn, s₃, Vn, Fn, hrunn, hJn, hno⟩ := h.expr ctx hno ((hsees.effect hc).effect hy) (by omega) (by omega)
  exact ⟨_, s₃, Vc ++ Vy ++ Vn, _, hrunc.bind (hruny.bind (hrunn.bind (runs_pure _ _))), .ifElse hJc hJy hJn,
    (hc.trans hy).trans hno⟩

/-- The scope in which the definition of a `let` with one binding is judged. -/
def groupScope (ctx : Context) (x : String) (d : Expr) (i : Nat) : Scope :=
  .group [(x, i)] ctx.mono ([i].zip (Dependencies.ofBindings ⟨[(x, .expr d)], [], []⟩).components)

theorem runs_deferGroup (ctx : Context) (x : String) (d : Expr) (t : State) :
    Runs (deferGroup ctx ⟨[(x, .expr d)], [], []⟩) t ⟨groupScope ctx x d t.size, [(x, t.size)], []⟩
      ((t.told ctx x d).push (.deferred ⟨groupScope ctx x d t.size :: ctx.scopes, ctx.mono, .expr d⟩)) := by
  have htold : Runs (record fun s => .deferred ⟨ctx, ⟨[(x, .expr d)], [], []⟩, s.slots.size⟩) t ()
      (t.told ctx x d) := rfl
  refine htold.bind ?_
  rw [show t.size = (t.told ctx x d).size from rfl]
  generalize t.told ctx x d = s
  have hreserve : Runs reserve s s.size (s.push .reserved) := rfl
  have hfill : (s.push .reserved).slots.fill s.size ⟨groupScope ctx x d s.size :: ctx.scopes, ctx.mono, .expr d⟩ =
      .ok (s.push (.deferred ⟨groupScope ctx x d s.size :: ctx.scopes, ctx.mono, .expr d⟩)).slots := by
    rw [Slots.fill]
    rw [show (s.push .reserved).slots.slots[s.size]? = some .reserved from s.slot?_push_self .reserved]
    exact congrArg (fun s : State => Except.ok s.slots) (s.put_push .reserved _)
  have hbinding : Runs (do
      let pending ← deferredBinding ctx (groupScope ctx x d s.size) [] x (.expr d)
      changeSlots (·.fill s.size pending)) (s.push .reserved) () _ := (runs_pure _ _).bind (runs_changeSlots hfill)
  -- one name, no sources
  refine (runs_mapM_singleton (hreserve.bind (runs_pure (x, s.size) _))).bind ((runs_pure [] _).bind ?_)
  exact (runs_pure () _).bind ((hbinding.bind (runs_pure () _)).bind (runs_pure _ _))

theorem runs_forceGroup {run : Runner} {i : Nat} {J : Judgment} {s' : State} (scope : Scope)
    (h : Runs (run ctx (.force i)) s J s') :
    Runs (forceGroup run ctx ⟨scope, [(x, i)], []⟩) s ([(x, J.ty)], [J]) s' :=
  (runs_mapM_singleton (h.bind (runs_pure (x, J) s'))).bind ((runs_pure [] s').bind (runs_pure _ s'))

theorem letIn {d b : Expr} (h : Adequate env depth) (hd : d.Core bound) (hfresh : x ∉ d.mentioned)
    (hb : b.Core (x :: bound)) (hsees : Sees s n ctx.scopes bound) (hn : n ≤ s.size)
    (hdepth : 2 * (d.all.length + b.all.length) + 1 + s.work ≤ depth) :
    Judged (Judging.letIn (runTo env depth) ctx ⟨[(x, .expr d)], [], []⟩ b) ctx.mono
      (.mk id span (.letIn ⟨[(x, .expr d)], [], []⟩ b)) s := by
  have hdefer := runs_deferGroup ctx x d s
  have htold : ∀ {t : State} {V : List Nat} {F : List ForcedSlot}, Effect (s.told ctx x d) t V F → Effect s t V F :=
    fun h => { h with }
  replace hsees : Sees (s.told ctx x d) n ctx.scopes bound := hsees.congr fun _ _ => rfl
  rw [show s.size = (s.told ctx x d).size from rfl] at hdefer hn
  rw [show s.work = (s.told ctx x d).work from rfl] at hdepth
  generalize s.told ctx x d = s at *
  let scope := groupScope ctx x d s.size
  let s₁ := s.push (.deferred ⟨scope :: ctx.scopes, ctx.mono, .expr d⟩)
  have hwork : s₁.work = s.work + (2 * d.all.length + 1) := s.work_push _
  have hsize : s₁.size = s.size + 1 := Array.size_push _
  have hsees₁ : Sees s₁ n ctx.scopes bound := hsees.congr fun i hi => State.slot?_push_ne (by omega) _
  -- the definition does not mention the name, so it sees through the scope of its own group
  have hrestrict : d.Core (bound.filter (· ≠ x)) := hd.restrict fun y hy hm => by
    have hne : y ≠ x := by
      rintro rfl
      exact hfresh hm
    simp [hy, hne]
  have hdef : Sees s₁ s.size (scope :: ctx.scopes) (bound.filter (· ≠ x)) := by
    refine (hsees₁.mono hn).skip fun y hy => ?_
    obtain ⟨hy, hne⟩ : y ∈ bound ∧ y ≠ x := by simpa using hy
    exact ⟨hy, by simp [scope, groupScope, Scope.lexical?, hne]⟩
  have hready : Ready s₁ s.size := .deferred (s.slot?_push_self _) hrestrict hdef.names hdef.ready
  have hbody : Sees s₁ s₁.size (.letBody [(x, s.size)] ctx.mono :: ctx.scopes) (x :: bound) := by
    refine (hsees₁.mono (by omega)).enter (l := .letBody s.size ctx.mono) ?_ (fun y hy => ?_)
      (.inr ⟨_, _, rfl, by omega, hready⟩)
    · simp [Scope.lexical?]
    · simp [Scope.lexical?, hy]
  have hjudged : Judged (runTo env depth (ctx.enter (.letBody [(x, s.size)] ctx.mono)) (.expr b)) ctx.mono b s₁ :=
    h.expr _ hb hbody (Nat.le_refl _) (by omega)
  obtain ⟨Jb, s₂, Vb, Fb, hrunb, hJb, heffectb⟩ := hjudged
  have := heffectb.work_le
  have := b.length_all
  -- the body may have judged the definition; whether or not, its slot is judged after this
  obtain ⟨Jd, s₃, Fd, hrund, heffectd, hforced, -⟩ := h.force ctx (hready.effect heffectb) (by omega)
  obtain ⟨Vd, F, hJd, heffect⟩ := (heffectb.trans heffectd).letIn hforced
  rw [List.append_nil] at heffect
  refine ⟨_, s₃, Vd ++ Vb, F, hdefer.bind ((runs_pure [] _).bind ?_), .letIn hJd hJb, htold heffect⟩
  exact hrunb.bind ((runs_forceGroup _ hrund).bind (runs_pure _ _))

end Expr

/-- One level more covers one level of an expression. -/
theorem expr_succ (h : Adequate env depth) {e : Expr} (he : e.Core bound) (hsees : Sees s n ctx.scopes bound)
    (hn : n ≤ s.size) (hdepth : 2 * e.all.length + s.work ≤ depth + 1) :
    Judged (runTo env (depth + 1) ctx (.expr e)) ctx.mono e s := by
  rw [Expr.length_all] at hdepth
  refine Judged.recorded ctx ?_
  cases he with
  | literal core => exact ⟨_, s, [], [], runs_pure _ _, .literal _, .refl s⟩
  | ref mem => exact h.ref hsees mem (by omega)
  | lambda body =>
    simp only [Expr.parts, Expr.form, Form.parts, Param.defaults, List.nil_append, List.map_cons, List.map_nil,
      List.sum_cons, List.sum_nil] at hdepth
    exact h.lambda body hsees hn (by omega)
  | apply fn arg =>
    simp only [Expr.parts, Expr.form, Form.parts, List.map_cons, List.map_nil, List.sum_cons, List.sum_nil] at hdepth
    exact h.apply fn arg hsees hn (by omega)
  | ifElse cond yes no =>
    simp only [Expr.parts, Expr.form, Form.parts, List.map_cons, List.map_nil, List.sum_cons, List.sum_nil] at hdepth
    exact h.ifElse cond yes no hsees hn (by omega)
  | letIn definition fresh body =>
    simp [Expr.parts, Expr.form, Form.parts, Bindings.parts, Binding.expr?] at hdepth
    exact h.letIn definition fresh body hsees hn (by omega)

end Adequate

theorem adequate (env : Env) (depth : Nat) : Adequate env depth := by
  induction depth with
  | zero =>
    refine ⟨fun ctx e s n bound _ _ _ hdepth => ?_, fun ctx i s _ hdepth => by omega⟩
    rw [Expr.length_all] at hdepth
    omega
  | succ depth ih => exact ⟨fun ctx _ _ _ _ => ih.expr_succ, fun ctx _ _ => ih.force_succ⟩

end Judging

/-- A closed expression of the core language is judged, with variables of its own. -/
theorem Expr.judge_core {e : Expr} (he : e.Core []) (env : Env) :
    ∃ J s V, e.judge env = .ok (J, s) ∧ Judges ∅ e J V ∧ V.Nodup ∧ ∀ v ∈ V, v < s.next := by
  have hsees : Judging.Sees {} 0 [] [] := ⟨fun x hx => (nomatch hx), fun x hx => (nomatch hx)⟩
  have hjudged : Judging.Judged (Judging.runTo env (Judging.depthOf e) {} (.expr e)) ∅ e {} := by
    refine (Judging.adequate env _).expr {} he hsees (Nat.le_refl 0) ?_
    show 2 * e.all.length + 0 ≤ 3 * e.all.length + 3
    omega
  obtain ⟨J, s, V, F, hrun, hJ, heffect⟩ := hjudged
  refine ⟨J, s, V, hrun, hJ, (List.nodup_append.1 heffect.nodup).1, fun v hv => ?_⟩
  exact (heffect.issued v (List.mem_append_left _ hv)).2

end NixTyping
