import Mathlib
import NixTyping.Proofs.WalkBasics
/-!
# Groups that are put off

The bindings of a group go into consecutive slots, its names first and its sources
behind them. `Deferral.pendings` lists what is put there, and `runs_deferGroup_eq`
says that a walk puts it there: the state has the slots of the group behind those it
had, and its history tells of the deferral.
-/

namespace NixTyping

namespace Judging

namespace Deferral

variable (d : Deferral)

/-- The names of the group with their slots. -/
def names : NamedSlots := d.group.names.zipIdx d.first

/-- The slots of the sources. -/
def sources : List Nat := List.range' (d.first + d.group.statics.length) d.group.sources.length

/-- The number of slots. -/
def size : Nat := d.group.statics.length + d.group.sources.length

def components : List (Nat × Nat) := (List.range' d.first d.size).zip (Dependencies.ofBindings d.group).components

/-- The scope of the bindings. -/
def scope : Scope := .group d.names d.ctx.mono d.components

/-- The scope of the body of a `let`. -/
def body : Scope := .letBody d.names d.ctx.mono

/-- What a binding waits for. -/
def pending (name : String) : Binding Expr → Pending
  | .expr e => ⟨d.scope :: d.ctx.scopes, d.ctx.mono, .expr e⟩
  | .inherit e => ⟨d.ctx.scopes, d.ctx.mono, .expr e⟩
  | .inheritFrom i =>
    ⟨d.scope :: d.ctx.scopes, d.ctx.mono, .field (d.first + d.group.statics.length + i) name⟩

/-- What is put into the slots, in order. -/
def pendings : List Pending :=
  d.group.statics.map (fun b => d.pending b.1 b.2) ++
    d.group.sources.map fun e => ⟨d.scope :: d.ctx.scopes, d.ctx.mono, .expr e⟩

theorem length_pendings : d.pendings.length = d.size := by simp [pendings, size]

theorem getElem?_pendings {k : Nat} {p : Pending} (h : d.pendings[k]? = some p) :
    (∃ name b, d.group.statics[k]? = some (name, b) ∧ p = d.pending name b) ∨
      ∃ i e, k = d.group.statics.length + i ∧ d.group.sources[i]? = some e ∧
        p = ⟨d.scope :: d.ctx.scopes, d.ctx.mono, .expr e⟩ := by
  by_cases hk : k < d.group.statics.length
  · rw [pendings, List.getElem?_append_left (by simpa using hk), List.getElem?_map] at h
    obtain ⟨⟨name, b⟩, hb, rfl⟩ := Option.map_eq_some_iff.1 h
    exact .inl ⟨name, b, hb, rfl⟩
  · rw [pendings, List.getElem?_append_right (by simpa using hk), List.getElem?_map, List.length_map] at h
    obtain ⟨e, he, rfl⟩ := Option.map_eq_some_iff.1 h
    exact .inr ⟨k - d.group.statics.length, e, by omega, he, rfl⟩

/-- What waits is a part of the group. -/
theorem mem_parts_of_pending {p : Pending} (hp : p ∈ d.pendings) {e : Expr} (he : p.value = .expr e) :
    e ∈ d.group.parts := by
  simp only [Bindings.parts, List.mem_append, List.mem_filterMap]
  rcases List.mem_append.1 hp with hp | hp
  · obtain ⟨⟨name, b⟩, hb, rfl⟩ := List.mem_map.1 hp
    refine .inl (.inl ⟨_, hb, ?_⟩)
    cases b with
    | expr _ | «inherit» _ => cases he; rfl
    | inheritFrom _ => cases he
  · obtain ⟨e', he', rfl⟩ := List.mem_map.1 hp
    cases he
    exact .inl (.inr he')

/-- The group as the walk has it. -/
def toGroup : Group := ⟨d.scope, d.names, d.sources⟩

theorem slots_eq : d.names.map (·.2) ++ d.sources = List.range' d.first d.size := by
  rw [names, List.zipIdx_map_snd, sources, Bindings.names, List.length_map, size, List.range'_append_1]

end Deferral

/-- The state in which a group was put off. -/
def State.deferred (s : State) (d : Deferral) : State :=
  { s with slots := ⟨s.slots.slots ++ (d.pendings.map Slot.deferred).toArray⟩, history := .deferred d :: s.history }

/-! ## Filling consecutive slots -/

/-- The state with other slots. -/
def State.withSlots (s : State) (xs : List (Slot Pending Judgment)) : State := { s with slots := ⟨xs.toArray⟩ }

section Fill
variable {s : State} {xs ys : List (Slot Pending Judgment)}

theorem runs_reserve (s : State) (xs : List (Slot Pending Judgment)) :
    Runs reserve (s.withSlots xs) xs.length (s.withSlots (xs ++ [.reserved])) := by
  show Except.ok _ = Except.ok _
  simp [State.withSlots, Slots.reserve]

/-- Reserve a slot for each item. -/
theorem runs_reserveEach {α β : Type} {f : α → Judging β} (g : α × Nat → β) (s : State)
    (xs : List (Slot Pending Judgment)) (as : List α)
    (h : ∀ a (us : List (Slot Pending Judgment)),
      Runs (f a) (s.withSlots us) (g (a, us.length)) (s.withSlots (us ++ [.reserved]))) :
    Runs (as.mapM f) (s.withSlots xs) ((as.zipIdx xs.length).map g)
      (s.withSlots (xs ++ List.replicate as.length .reserved)) := by
  induction as generalizing xs with
  | nil =>
    rw [List.length_nil, List.replicate_zero, List.append_nil]
    exact runs_pure _ _
  | cons a as ih =>
    rw [List.mapM_cons]
    have hrest := ih (xs ++ [.reserved])
    rw [List.length_append, List.length_singleton, List.append_assoc] at hrest
    exact (h a xs).bind (hrest.bind (runs_pure _ _))

theorem runs_fill (s : State) (xs ys : List (Slot Pending Judgment)) (p : Pending) :
    Runs (changeSlots (·.fill xs.length p)) (s.withSlots (xs ++ .reserved :: ys)) ()
      (s.withSlots (xs ++ .deferred p :: ys)) := by
  have hfill : (s.withSlots (xs ++ .reserved :: ys)).slots.fill xs.length p =
      .ok ⟨(xs ++ .deferred p :: ys).toArray⟩ := by
    simp [State.withSlots, Slots.fill, Slots.put, List.set_append_right]
  exact runs_changeSlots hfill

/-- Fill as many slots as there are items. -/
theorem runs_fillAll {α : Type} {f : α → Judging Unit} {g : α → Pending} {s : State}
    {xs ys : List (Slot Pending Judgment)} {as : List α}
    (h : ∀ k a, as[k]? = some a → ∀ us vs : List (Slot Pending Judgment), us.length = xs.length + k →
      Runs (f a) (s.withSlots (us ++ .reserved :: vs)) () (s.withSlots (us ++ .deferred (g a) :: vs))) :
    Runs (as.forM f) (s.withSlots (xs ++ List.replicate as.length .reserved ++ ys)) ()
      (s.withSlots (xs ++ as.map (fun a => .deferred (g a)) ++ ys)) := by
  induction as generalizing xs with
  | nil => exact runs_pure () _
  | cons a as ih =>
    have hhead := h 0 a rfl xs (List.replicate as.length .reserved ++ ys) rfl
    have htail :
        Runs (as.forM f) (s.withSlots (xs ++ [.deferred (g a)] ++ List.replicate as.length .reserved ++ ys)) () _ :=
      ih fun k b hb us vs hus => h (k + 1) b (by simpa using hb) us vs (by simp at hus; omega)
    rw [List.length_cons, List.replicate_succ]
    simp only [List.append_assoc, List.cons_append, List.map_cons] at hhead htail ⊢
    exact hhead.bind htail

end Fill

/-! ## Deferral of a group -/

theorem deferredBinding_eq {d : Deferral} (h : d.group.Sourced) {name : String} {binding : Binding Expr}
    (hmem : (name, binding) ∈ d.group.statics) :
    deferredBinding d.ctx d.scope d.sources name binding = .ok (d.pending name binding) := by
  cases binding with
  | expr e => rfl
  | «inherit» e => rfl
  | inheritFrom i =>
    have hi := h name i hmem
    have hslot : d.sources[i]? = some (d.first + d.group.statics.length + i) := by
      rw [Deferral.sources, List.getElem?_range' hi, Nat.one_mul]
    simp only [deferredBinding, hslot, Deferral.pending]
    rfl

theorem map_zip_fst {α β γ : Type} {as : List α} {bs : List β} (h : as.length ≤ bs.length) (g : α → γ) :
    (as.zip bs).map (fun x => g x.1) = as.map g := by
  conv_rhs => rw [← List.map_fst_zip h, List.map_map]
  rfl

theorem runs_fillSources (d : Deferral) (s : State) (xs : List (Slot Pending Judgment))
    (hlength : xs.length = d.first + d.group.statics.length) :
    Runs ((d.group.sources.zip d.sources).forM fun (e, slot) =>
        changeSlots (·.fill slot ⟨d.scope :: d.ctx.scopes, d.ctx.mono, .expr e⟩))
      (s.withSlots (xs ++ List.replicate d.group.sources.length .reserved)) ()
      (s.withSlots (xs ++ d.group.sources.map fun e => .deferred ⟨d.scope :: d.ctx.scopes, d.ctx.mono, .expr e⟩)) := by
  have hsize : d.group.sources.length = d.sources.length := by simp [Deferral.sources]
  have hzip : (d.group.sources.zip d.sources).length = d.group.sources.length := by simp [hsize]
  rw [← hzip, ← map_zip_fst hsize.le, ← List.append_nil (xs ++ List.replicate _ _),
    ← List.append_nil (xs ++ List.map _ _)]
  refine runs_fillAll fun k x hk us vs hus => ?_
  obtain ⟨e, slot⟩ := x
  obtain ⟨he, hslot⟩ := List.getElem?_zip_eq_some.1 hk
  obtain rfl : slot = us.length := by
    rw [Deferral.sources, List.getElem?_range' (List.getElem?_eq_some_iff.1 he).1] at hslot
    have := Option.some.inj hslot
    omega
  exact runs_fill s us vs _

theorem runs_fillNames (d : Deferral) (h : d.group.Sourced) (s : State) (xs ys : List (Slot Pending Judgment))
    (hlength : xs.length = d.first) :
    Runs ((d.group.statics.zip d.names).forM fun ((name, binding), (_, slot)) => do
        let pending ← deferredBinding d.ctx d.scope d.sources name binding
        changeSlots (·.fill slot pending))
      (s.withSlots (xs ++ List.replicate d.group.statics.length .reserved ++ ys)) ()
      (s.withSlots (xs ++ d.group.statics.map (fun b => .deferred (d.pending b.1 b.2)) ++ ys)) := by
  have hsize : d.group.statics.length = d.names.length := by simp [Deferral.names, Bindings.names]
  have hzip : (d.group.statics.zip d.names).length = d.group.statics.length := by simp [hsize]
  rw [← hzip, ← map_zip_fst hsize.le]
  refine runs_fillAll fun k x hk us vs hus => ?_
  obtain ⟨⟨name, binding⟩, name', slot⟩ := x
  obtain ⟨hbinding, hslot⟩ := List.getElem?_zip_eq_some.1 hk
  obtain rfl : slot = us.length := by
    rw [Deferral.names, List.getElem?_zipIdx] at hslot
    obtain ⟨_, -, heq⟩ := Option.map_eq_some_iff.1 hslot
    cases heq
    omega
  have hpending :
      Runs (liftM (deferredBinding d.ctx d.scope d.sources name binding)) (s.withSlots (us ++ .reserved :: vs))
      (d.pending name binding) (s.withSlots (us ++ .reserved :: vs)) := by
    rw [deferredBinding_eq h (List.mem_of_getElem? hbinding)]
    rfl
  exact hpending.bind (runs_fill s us vs _)

theorem runs_deferGroup_eq (ctx : Context) {b : Bindings Expr} (h : b.Sourced) (s : State) :
    Runs (deferGroup ctx b) s (Deferral.toGroup ⟨ctx, b, s.size⟩) (s.deferred ⟨ctx, b, s.size⟩) := by
  let d : Deferral := ⟨ctx, b, s.size⟩
  let t : State := { s with history := .deferred d :: s.history }
  let xs := s.slots.slots.toList
  have hrecord : Runs (record fun s => .deferred ⟨ctx, b, s.slots.size⟩) s () (t.withSlots xs) := rfl
  have hnames : Runs (b.names.mapM fun name => return (name, ← reserve)) (t.withSlots xs) d.names
      (t.withSlots (xs ++ List.replicate b.statics.length .reserved)) := by
    have hone : ∀ (name : String) (us : List (Slot Pending Judgment)), Runs (return (name, ← reserve)) (t.withSlots us)
        (id (name, us.length)) (t.withSlots (us ++ [.reserved])) :=
      fun name us => (runs_reserve t us).bind (runs_pure (name, us.length) _)
    simpa [Bindings.names, xs, d, Deferral.names, State.size] using runs_reserveEach id t xs b.names hone
  have hsources : Runs (b.sources.mapM fun _ => reserve) (t.withSlots (xs ++ List.replicate b.statics.length .reserved))
      d.sources
      (t.withSlots (xs ++ List.replicate b.statics.length .reserved ++ List.replicate b.sources.length .reserved)) := by
    have hall := runs_reserveEach Prod.snd t (xs ++ List.replicate b.statics.length .reserved) b.sources
      fun _ us => runs_reserve t us
    simpa [List.zipIdx_map_snd, xs, d, Deferral.sources, State.size] using hall
  refine hrecord.bind (hnames.bind (hsources.bind ?_))
  simp only [d.slots_eq]
  have hfillSources :=
    runs_fillSources d t (xs ++ List.replicate b.statics.length .reserved) (by simp [xs, d, State.size])
  have hfillNames := runs_fillNames d h t xs
    (b.sources.map fun e => .deferred ⟨d.scope :: ctx.scopes, ctx.mono, .expr e⟩) (by simp [xs, d, State.size])
  have hslots : t.withSlots (xs ++ b.statics.map (fun b => .deferred (d.pending b.1 b.2)) ++
      b.sources.map fun e => .deferred ⟨d.scope :: ctx.scopes, ctx.mono, .expr e⟩) = s.deferred d := by
    simp [State.withSlots, State.deferred, t, xs, Deferral.pendings, d, List.map_map, Function.comp_def]
  rw [← hslots]
  exact hfillSources.bind (hfillNames.bind (runs_pure _ _))

end Judging

end NixTyping
