import Mathlib
import NixTyping.Proofs.Comparison
/-!
# Two walks side by side

The states of two walks that are compared have the same known records and the same in
their slots, each as the place asks at which it was written down. A `World` keeps these
places, and how many variables are issued; it only grows.

`Sim` relates two computations on such states. Where the first succeeds so does the
second, with related results and states; where the first fails and the comparison is
strict, the second fails in the same way. It is shown here for the steps of a walk that
look at no expression: numbers, notes, records and slots.
-/

namespace NixTyping

open Judging

/-- The failure, with other numbers for the slots. -/
def Base.stuck (B : Base) : Stuck → Stuck
  | .slot (.loop i) => .slot (.loop (B.index i))
  | .slot (.unknown i) => .slot (.unknown (B.index i))
  | .slot (.notForcing i) => .slot (.notForcing (B.index i))
  | .slot (.alreadyFilled i) => .slot (.alreadyFilled (B.index i))
  | e => e

namespace Comparison
variable (C : Comparison)

/-! ## Worlds and states -/

/-- How far two walks have come: the variables that the first has issued, and the place where each slot was filled. -/
structure World where
  next : Nat
  book : Nat → Option Place

instance : Preorder World where
  le w w' := w.next ≤ w'.next ∧ ∀ i p, w.book i = some p → w'.book i = some p
  le_refl w := ⟨le_rfl, fun _ _ h => h⟩
  le_trans _ _ _ h h' := ⟨h.1.trans h'.1, fun i p hi => h'.2 i p (h.2 i p hi)⟩

/-- What waits in a slot, filled at a place. -/
inductive Waiting (p : Place) (k : Nat) : Pending → Pending → Prop where
  | expr {scopes scopes' : List Scope} {M M' : VarSet} {e : Expr} (around : C.Scopes p k scopes scopes')
    (mono : (C.kin k).mono M M') (suits : e.Everywhere C.Suits) :
    Waiting p k ⟨scopes, M, .expr e⟩ ⟨scopes', M', .expr (C.R.expr p.stage e)⟩
  | field (scopes scopes' : List Scope) (M M' : VarSet) (source : Nat) (name : String) :
    Waiting p k ⟨scopes, M, .field source name⟩ ⟨scopes', M', .field (C.base.index source) name⟩

/-- What is in a slot of the first walk and in that of the second. -/
inductive Slots (w : World) (i : Nat) : Option (Slot Pending Judgment) → Option (Slot Pending Judgment) → Prop where
  | none (empty : w.book i = none) : Slots w i none none
  | reserved (empty : w.book i = none) : Slots w i (some .reserved) (some .reserved)
  | deferred {p : Place} {q q' : Pending} (placed : w.book i = some p) (waiting : C.Waiting p w.next q q') :
    Slots w i (some (.deferred q)) (some (.deferred q'))
  | forcing {p : Place} (placed : w.book i = some p) : Slots w i (some .forcing) (some .forcing)
  | forced {p : Place} {J J' : Judgment} (placed : w.book i = some p) (judged : C.Judgments p w.next J J') :
    Slots w i (some (.forced J)) (some (.forced J'))

/-- The states of the two walks. The slots of the base stay as they are. -/
structure States (w : World) (s s' : State) : Prop where
  next : s.next = w.next
  next' : s'.next = C.base.var w.next
  known : ∀ v, Option.Rel (C.Records w.next) (s.known.lookup v) (s'.known.lookup (C.base.var v))
  size : s'.size = C.base.index s.size
  slots : ∀ i, C.Slots w i (s.slot? i) (s'.slot? (C.base.index i))
  kept : ∀ i, i < C.base.state.size → s'.slot? i = C.base.state.slot? i

section States
variable {C} {w w' : World} {s s' : State} {i : Nat}

theorem Waiting.mono {p : Place} {k k' : Nat} {q q' : Pending} (h : C.Waiting p k q q') (hk : k ≤ k') :
    C.Waiting p k' q q' := by
  cases h with
  | expr around mono suits => exact .expr (around.mono hk) (kin_mono_mono hk mono) suits
  | field scopes scopes' M M' source name => exact .field scopes scopes' M M' source name

theorem Slots.mono {c c' : Option (Slot Pending Judgment)} (h : C.Slots w i c c') (hw : w ≤ w')
    (hbook : w'.book i = w.book i) : C.Slots w' i c c' := by
  cases h with
  | none empty => exact .none (hbook.trans empty)
  | reserved empty => exact .reserved (hbook.trans empty)
  | deferred placed waiting => exact .deferred (hbook.trans placed) (waiting.mono hw.1)
  | forcing placed => exact .forcing (hbook.trans placed)
  | forced placed judged => exact .forced (hbook.trans placed) (judged.mono hw.1)

theorem States.issue (h : C.States w s s') :
    C.States { w with next := w.next + 1 } { s with next := s.next + 1 } { s' with next := s'.next + 1 } where
  next := by rw [h.next]
  next' := by
    show s'.next + 1 = w.next + 1 + C.base.state.next
    rw [h.next', Base.var, Nat.add_right_comm]
  known v := rel_option_imp (h.known v) fun _ _ hr => hr.mono (Nat.le_succ _)
  size := h.size
  slots i := (h.slots i).mono ⟨Nat.le_succ _, fun _ _ hp => hp⟩ rfl
  kept := h.kept

/-- What neither walk looks at may change. -/
theorem States.congr {t t' : State} (h : C.States w s s') (hnext : t.next = s.next) (hslots : t.slots = s.slots)
    (hknown : t.known = s.known) (hnext' : t'.next = s'.next) (hslots' : t'.slots = s'.slots)
    (hknown' : t'.known = s'.known) : C.States w t t' := by
  obtain ⟨next, slots, known, notes, history⟩ := t
  obtain ⟨next', slots', known', notes', history'⟩ := t'
  obtain rfl : next = s.next := hnext
  obtain rfl : slots = s.slots := hslots
  obtain rfl : known = s.known := hknown
  obtain rfl : next' = s'.next := hnext'
  obtain rfl : slots' = s'.slots := hslots'
  obtain rfl : known' = s'.known := hknown'
  exact ⟨h.next, h.next', h.known, h.size, h.slots, h.kept⟩

theorem States.push (h : C.States w s s') : C.States w (s.push .reserved) (s'.push .reserved) where
  next := h.next
  next' := h.next'
  known := h.known
  size := by
    show (Array.push _ _).size = C.base.index (Array.push _ _).size
    rw [Array.size_push, Array.size_push]
    show s'.size + 1 = s.size + 1 + C.base.state.size
    rw [h.size, Base.index, Nat.add_right_comm]
  slots k := by
    by_cases hk : k = s.size
    · have hempty : w.book k = none := by
        have hnone : s.slot? k = none := by
          rw [hk]
          exact Array.getElem?_size
        have hslot := h.slots k
        rw [hnone] at hslot
        generalize s'.slot? (C.base.index k) = c at hslot
        cases hslot with
        | none empty => exact empty
      have hself := State.slot?_push_self s .reserved
      have hself' := State.slot?_push_self s' .reserved
      rw [← hk] at hself
      rw [h.size, ← hk] at hself'
      rw [hself, hself']
      exact .reserved hempty
    · have hk' : C.base.index k ≠ s'.size := by
        rw [h.size]
        exact fun heq => hk (Base.index_injective heq)
      rw [State.slot?_push_ne hk, State.slot?_push_ne hk']
      exact h.slots k
  kept k hk := by
    have hne : k ≠ s'.size := by
      rw [h.size, Base.index]
      omega
    rw [State.slot?_push_ne hne]
    exact h.kept k hk

/-- A slot that is there is put into another state; only its own place may change. -/
theorem States.put (h : C.States w s s') (hi : i < s.size) (hw : w ≤ w') (hnext : w'.next = w.next)
    (hbook : ∀ k, k ≠ i → w'.book k = w.book k) {c c' : Slot Pending Judgment} (hc : C.Slots w' i (some c) (some c')) :
    C.States w' (s.put i c) (s'.put (C.base.index i) c') where
  next := h.next.trans hnext.symm
  next' := by
    rw [hnext]
    exact h.next'
  known := by
    rw [hnext]
    exact h.known
  size := by
    show (Array.setIfInBounds _ _ _).size = C.base.index (Array.setIfInBounds _ _ _).size
    rw [Array.size_setIfInBounds, Array.size_setIfInBounds]
    exact h.size
  slots k := by
    by_cases hk : k = i
    · have hi' : C.base.index i < s'.size := by
        rw [h.size]
        exact Nat.add_lt_add_right hi _
      rw [hk, State.slot?_put_self hi, State.slot?_put_self hi']
      exact hc
    · have hk' : C.base.index k ≠ C.base.index i := fun heq => hk (Base.index_injective heq)
      rw [State.slot?_put_ne hk, State.slot?_put_ne hk']
      exact (h.slots k).mono hw (hbook k hk)
  kept k hk := by
    have hne : k ≠ C.base.index i := by
      rw [Base.index]
      omega
    rw [State.slot?_put_ne hne]
    exact h.kept k hk

variable (C) in
/-- The states in which the walks begin. -/
theorem states_start : C.States ⟨0, fun _ => none⟩ {} C.base.state where
  next := rfl
  next' := (Nat.zero_add _).symm
  known v := by
    have hnone : C.base.state.known.lookup (C.base.var v) = none := by
      rw [List.lookup_eq_none_iff]
      intro r hr
      have hlt := C.base.known r hr
      rw [bne_iff_ne, Base.var]
      omega
    rw [hnone]
    exact .none
  size := (Nat.zero_add _).symm
  slots i := by
    have hnone : C.base.state.slot? (C.base.index i) = none := Array.getElem?_eq_none (Nat.le_add_left _ _)
    rw [hnone]
    exact .none rfl
  kept _ _ := rfl

end States

/-! ## Computations side by side -/

/-- What two computations come to. -/
inductive Outcomes {α β : Type} (w : World) (Q : World → α → β → Prop) :
    Except Stuck (α × State) → Except Stuck (β × State) → Prop where
  | error {e : Stuck} {r : Except Stuck (β × State)} (same : C.strict → r = .error (C.base.stuck e)) :
    Outcomes w Q (.error e) r
  | ok {a : α} {b : β} {t t' : State} (w' : World) (later : w ≤ w') (states : C.States w' t t') (post : Q w' a b) :
    Outcomes w Q (.ok (a, t)) (.ok (b, t'))

/-- Two computations side by side. -/
def Sim {α β : Type} (w : World) (m : Judging α) (m' : Judging β) (Q : World → α → β → Prop) : Prop :=
  ∀ s s', C.States w s s' → C.Outcomes w Q (m.run s) (m'.run s')

section Sim
variable {C} {α β γ δ : Type} {w : World} {m : Judging α} {m' : Judging β}
  {P : World → α → β → Prop} {Q : World → γ → δ → Prop}

theorem Outcomes.after {w₁ : World} {r : Except Stuck (α × State)} {r' : Except Stuck (β × State)} (hw : w ≤ w₁)
    (h : C.Outcomes w₁ P r r') : C.Outcomes w P r r' := by
  cases h with
  | error same => exact .error same
  | ok w₂ later states post => exact .ok w₂ (hw.trans later) states post

theorem sim_pure {a : α} {b : β} (h : P w a b) : C.Sim w (pure a) (pure b) P := fun _ _ hs => .ok w le_rfl hs h

theorem Sim.bind {f : α → Judging γ} {f' : β → Judging δ} (h : C.Sim w m m' P)
    (hf : ∀ w₁ a b, w ≤ w₁ → P w₁ a b → C.Sim w₁ (f a) (f' b) Q) : C.Sim w (m >>= f) (m' >>= f') Q := by
  intro s s' hs
  have hm := h s s' hs
  rw [StateT.run_bind, StateT.run_bind]
  generalize m.run s = r, m'.run s' = r' at hm
  cases hm with
  | error same =>
    refine .error fun hstrict => ?_
    rw [same hstrict]
    rfl
  | @ok a b t t' w₁ later states post => exact .after later (hf w₁ a b later post t t' states)

theorem Sim.imp {P' : World → α → β → Prop} (h : C.Sim w m m' P) (himp : ∀ w₁ a b, w ≤ w₁ → P w₁ a b → P' w₁ a b) :
    C.Sim w m m' P' := by
  intro s s' hs
  have hm := h s s' hs
  generalize m.run s = r, m'.run s' = r' at hm
  cases hm with
  | error same => exact .error same
  | ok w₁ later states post => exact .ok w₁ later states (himp w₁ _ _ later post)

/-- A list and its image worked off side by side, with what each result has to do with its element. -/
theorem sim_mapM_of {xs : List γ} (g : γ → δ) {f : γ → Judging α} {f' : δ → Judging β} {K : γ → α → Prop}
    (hP : ∀ w₁ w₂ a b, w₁ ≤ w₂ → P w₁ a b → P w₂ a b)
    (hf : ∀ x ∈ xs, ∀ w₁, w ≤ w₁ → C.Sim w₁ (f x) (f' (g x)) fun w₂ a b => K x a ∧ P w₂ a b) :
    C.Sim w (xs.mapM f) ((xs.map g).mapM f') fun w₁ as bs =>
      List.Forall₂ K xs as ∧ List.Forall₂ (P w₁) as bs := by
  induction xs generalizing w with
  | nil => exact sim_pure ⟨.nil, .nil⟩
  | cons x xs ih =>
    rw [List.map_cons, List.mapM_cons, List.mapM_cons]
    refine (hf x List.mem_cons_self w le_rfl).bind fun w₁ a b hw hab => ?_
    have hrest := ih fun y hy w₂ hw₂ => hf y (List.mem_cons_of_mem x hy) w₂ (hw.trans hw₂)
    refine hrest.bind fun w₂ as bs hw₂ hall => ?_
    exact sim_pure ⟨.cons hab.1 hall.1, .cons (hP _ _ _ _ hw₂ hab.2) hall.2⟩

theorem sim_mapM {xs : List γ} (g : γ → δ) {f : γ → Judging α} {f' : δ → Judging β}
    (hP : ∀ w₁ w₂ a b, w₁ ≤ w₂ → P w₁ a b → P w₂ a b)
    (hf : ∀ x ∈ xs, ∀ w₁, w ≤ w₁ → C.Sim w₁ (f x) (f' (g x)) P) :
    C.Sim w (xs.mapM f) ((xs.map g).mapM f') fun w₁ => List.Forall₂ (P w₁) := by
  have hof : C.Sim w (xs.mapM f) ((xs.map g).mapM f') fun w₁ as bs =>
      List.Forall₂ (fun _ _ => True) xs as ∧ List.Forall₂ (P w₁) as bs :=
    sim_mapM_of g hP fun x hx w₁ hw => (hf x hx w₁ hw).imp fun _ _ _ _ hab => ⟨trivial, hab⟩
  exact hof.imp fun _ _ _ _ hall => hall.2

/-- What is done for an element stays done. -/
theorem sim_forM {xs : List γ} (g : γ → δ) {f : γ → Judging Unit} {f' : δ → Judging Unit} {post : World → γ → Prop}
    (hpost : ∀ x w₁ w₂, w₁ ≤ w₂ → post w₁ x → post w₂ x)
    (hf : ∀ x ∈ xs, ∀ w₁, w ≤ w₁ → C.Sim w₁ (f x) (f' (g x)) fun w₂ _ _ => post w₂ x) :
    C.Sim w (xs.forM f) ((xs.map g).forM f') fun w₁ _ _ => ∀ x ∈ xs, post w₁ x := by
  induction xs generalizing w with
  | nil => exact sim_pure (by rintro x ⟨⟩)
  | cons x xs ih =>
    rw [List.map_cons, List.forM_eq_forM, List.forM_eq_forM, List.forM_cons, List.forM_cons]
    refine (hf x List.mem_cons_self w le_rfl).bind fun w₁ _ _ hw hdone => ?_
    have hrest := ih fun y hy w₂ hw₂ => hf y (List.mem_cons_of_mem x hy) w₂ (hw.trans hw₂)
    refine hrest.imp fun w₂ _ _ hw₂ hall z hz => ?_
    rcases List.mem_cons.1 hz with rfl | hz
    · exact hpost z _ _ hw₂ hdone
    · exact hall z hz

end Sim

/-! ## Small steps -/

section Steps
variable {C} {w : World}

theorem sim_fresh : C.Sim w fresh fresh fun w₁ v v' => (C.kin w₁.next).ty (.var v) (.var v') := by
  intro s s' hs
  refine .ok { w with next := w.next + 1 } ⟨Nat.le_succ _, fun _ _ hp => hp⟩ hs.issue (kin_ty_var.2 ⟨?_, ?_⟩)
  · rw [hs.next]
    exact Nat.lt_succ_self _
  · rw [hs.next]
    exact hs.next'

theorem sim_freshTy : C.Sim w freshTy freshTy fun w₁ t t' => (C.kin w₁.next).ty t t' :=
  sim_fresh.bind fun _ _ _ _ hv => sim_pure hv

theorem sim_unknown (p : Place) : C.Sim w unknown unknown fun w₁ => C.Judgments p w₁.next :=
  sim_freshTy.bind fun _ _ _ _ ht => sim_pure (Judgment.related_ofTy ht)

/-- The notes and the histories of the two walks are not compared. -/
theorem sim_note (n n' : Note) : C.Sim w (note n) (note n') fun _ _ _ => True :=
  fun _ _ hs => .ok w le_rfl (hs.congr rfl rfl rfl rfl rfl rfl) trivial

theorem sim_record (e e' : State → Event) : C.Sim w (record e) (record e') fun _ _ _ => True :=
  fun _ _ hs => .ok w le_rfl (hs.congr rfl rfl rfl rfl rfl rfl) trivial

theorem sim_remember {v v' : Nat} (hv : (C.kin w.next).ty (.var v) (.var v')) {r r' : KnownRecord}
    (hr : C.Records w.next r r') : C.Sim w (remember v r) (remember v' r') fun _ _ _ => True := by
  intro s s' hs
  obtain ⟨-, rfl⟩ := kin_ty_var.1 hv
  refine .ok w le_rfl ⟨hs.next, hs.next', fun u => ?_, hs.size, hs.slots, hs.kept⟩ trivial
  have hkey : (C.base.var u == C.base.var v) = (u == v) := by
    rw [Bool.eq_iff_iff, beq_iff_eq, beq_iff_eq]
    exact Base.var_injective.eq_iff
  simp only [List.lookup_cons, hkey]
  cases u == v with
  | true => exact .some hr
  | false => exact hs.known u

theorem sim_recordOf {t t' : Ty} (ht : (C.kin w.next).ty t t') :
    C.Sim w (recordOf t) (recordOf t') fun w₁ => Option.Rel (C.Records w₁.next) := by
  have hother : ∀ {u : Ty}, (C.kin w.next).ty u t' → (∀ fs b, u ≠ .record fs b) → (∀ v, t' ≠ .var v) →
      C.Sim w (pure none : Judging (Option KnownRecord)) (recordOf t') fun w₁ => Option.Rel (C.Records w₁.next) := by
    intro u hu hrecord hvar
    have hrecord' := kin_ty_not_record hu hrecord
    cases t' with
    | record fs b => exact absurd rfl (hrecord' fs b)
    | var v => exact absurd rfl (hvar v)
    | _ => exact sim_pure .none
  cases t with
  | var v =>
    obtain ⟨-, rfl⟩ := ht
    exact fun s s' hs => .ok w le_rfl hs (hs.known v)
  | record fs b =>
    obtain ⟨fs', rfl, hfs⟩ := kin_ty_record ht
    exact sim_pure (.some (.here ((C.kin w.next).record false hfs)))
  | overload ts => exact absurd ht.1.1 (Ty.not_overloadFree_overload ts)
  | prim p | fn p b | list ts => exact hother ht (by simp) (by rw [ht.2]; simp)

/-- A use of a type that was taken out of a record. -/
theorem sim_instanceOf {o o' : Origin} {t t' : Ty} (h : C.Taken w.next o o' t t') (p : Place) :
    C.Sim w (instanceOf t o) (instanceOf t' o') fun w₁ => C.Judgments p w₁.next := by
  cases h with
  | here ty => exact sim_pure (Judgment.related_ofTy ty)
  | letBound mono ty =>
    refine sim_freshTy.bind fun w₁ _ _ hw htv => sim_pure (Judgment.related_constrained ?_ htv)
    exact (C.kin w₁.next).implicit htv (kin_mono_mono hw.1 mono) (kin_ty_mono hw.1 ty)
  | @ambient vars t t' offered eq =>
    -- the labels go into the scheme of the instance, and its type is a variable that is issued here
    refine sim_freshTy.bind fun w₁ tv tv' hw htv => sim_pure (Judgment.related_constrained ⟨?_, ?_⟩ htv)
    · exact Constraint.Issued.explicit (σ := ⟨vars, t⟩) htv.1 offered
    · rw [htv.2, eq]
      rfl

theorem sim_fieldOf {t t' : Ty} (ht : (C.kin w.next).ty t t') (name : String) (p : Place) :
    C.Sim w (fieldOf t name) (fieldOf t' name) fun w₁ => C.Judgments p w₁.next := by
  refine (sim_recordOf ht).bind fun w₁ r r' _ hr => ?_
  cases hr with
  | none => exact sim_unknown p
  | @some r r' hr =>
    have hfield := rel_findKey hr.fields name
    simp only
    generalize findKey name r.fields = f, findKey name r'.fields = f' at hfield
    cases hfield with
    | none => exact sim_unknown p
    | some hf => exact sim_instanceOf hf p

end Steps

/-! ## Slots -/

section Slots
variable {C} {w : World}

theorem sim_reserve : C.Sim w reserve reserve fun _ i i' => i' = C.base.index i :=
  fun _ _ hs => .ok w le_rfl hs.push hs.size

/-- A slot that is filled gets a place. -/
theorem sim_fill (i : Nat) {p : Place} {q q' : Pending} (hq : C.Waiting p w.next q q') :
    C.Sim w (changeSlots (·.fill i q)) (changeSlots (·.fill (C.base.index i) q')) fun w₁ _ _ => w₁.book i = some p := by
  intro s s' hs
  have hslot := hs.slots i
  rw [run_changeSlots, run_changeSlots]
  unfold Slots.fill
  generalize hc : s.slot? i = c, hc' : s'.slot? (C.base.index i) = c' at hslot
  unfold State.slot? at hc hc'
  rw [hc, hc']
  cases hslot with
  | none empty => exact .error fun _ => rfl
  | reserved empty =>
    have hw : w ≤ { w with book := Function.update w.book i (some p) } := by
      refine ⟨le_rfl, fun k r hk => ?_⟩
      have hne : k ≠ i := by
        rintro rfl
        rw [empty] at hk
        cases hk
      exact (Function.update_of_ne hne _ _).trans hk
    have hplaced : Function.update w.book i (some p) i = some p := Function.update_self ..
    exact .ok _ hw
      (hs.put (State.lt_size hc) hw rfl (fun k hk => Function.update_of_ne hk _ _) (.deferred hplaced hq)) hplaced
  | _ => exact .error fun _ => rfl

theorem sim_finish {i : Nat} {p : Place} {J J' : Judgment} (hp : w.book i = some p) (hJ : C.Judgments p w.next J J') :
    C.Sim w (changeSlots (·.finish i J)) (changeSlots (·.finish (C.base.index i) J')) fun _ _ _ => True := by
  intro s s' hs
  have hslot := hs.slots i
  rw [run_changeSlots, run_changeSlots]
  unfold Slots.finish
  generalize hc : s.slot? i = c, hc' : s'.slot? (C.base.index i) = c' at hslot
  unfold State.slot? at hc hc'
  rw [hc, hc']
  cases hslot with
  | none empty => exact .error fun _ => rfl
  | forcing placed => exact .ok w le_rfl (hs.put (State.lt_size hc) le_rfl rfl (fun _ _ => rfl) (.forced hp hJ)) trivial
  | _ => exact .error fun _ => rfl

end Slots

end Comparison

end NixTyping
