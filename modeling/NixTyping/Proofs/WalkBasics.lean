import Mathlib
import NixTyping.Proofs.CoreWalk
/-!
# Facts about the whole walk

What the proofs about walks over all forms of expressions share: the parts of an
expression, the names that scopes bind, the equation of a pattern, runs that change
slots, and lists of related things.
-/

namespace NixTyping

/-! ## Parts -/

/-- The group of a `let` or of a recursive set. -/
def Form.group? {α : Type} : Form α → Option (Bindings α)
  | .letIn g _ | .set true g => some g
  | _ => none

/-- The computed names of a group and their values. -/
def Bindings.computed {α : Type} (b : Bindings α) : List α := b.dynamics.flatMap fun (key, value) => [key, value]

theorem Bindings.mem_parts_of_static {α : Type} {g : Bindings α} {b : String × Binding α} (hb : b ∈ g.statics) {p : α}
    (hp : b.2.expr? = some p) : p ∈ g.parts :=
  List.mem_append_left _ (List.mem_append_left _ (List.mem_filterMap.2 ⟨b, hb, hp⟩))

theorem Form.mem_parts_of_group {α : Type} {f : Form α} {g : Bindings α} (h : f.group? = some g) {p : α}
    (hp : p ∈ g.parts) : p ∈ f.parts := by
  cases f with
  | letIn g' body =>
    cases h
    exact List.mem_append_left _ hp
  | set recursive g' =>
    cases recursive with
    | true =>
      cases h
      exact hp
    | false => cases h
  | _ => cases h

/-- A group binds each of its names once. -/
def Expr.BindsOnce (e : Expr) : Prop := ∀ g, e.form.group? = some g → g.names.Nodup

/-- Every name that is taken from a source has its source. -/
def Bindings.Sourced {α : Type} (b : Bindings α) : Prop :=
  ∀ name i, (name, .inheritFrom i) ∈ b.statics → i < b.sources.length

/-- A group takes its names from sources that it has. -/
def Expr.Sourced (e : Expr) : Prop := ∀ g, e.form.group? = some g → g.Sourced

namespace Expr

theorem parts_induction {P : Expr → Prop} (h : ∀ e, (∀ p ∈ e.parts, P p) → P e) (e : Expr) : P e :=
  h e fun p _ => parts_induction h p
termination_by sizeOf e
decreasing_by exact sizeOf_mem_parts ‹_›

theorem mem_all {e p : Expr} : p ∈ e.all ↔ p = e ∨ ∃ q ∈ e.parts, p ∈ q.all := by
  rw [all_eq, List.mem_cons, List.mem_flatMap]

/-- The property holds of an expression and of everything under it. -/
def Everywhere (P : Expr → Prop) (e : Expr) : Prop := ∀ p ∈ e.all, P p

theorem Everywhere.self {P : Expr → Prop} {e : Expr} (h : e.Everywhere P) : P e := h e (mem_all.2 (.inl rfl))

theorem Everywhere.part {P : Expr → Prop} {e q : Expr} (h : e.Everywhere P) (hq : q ∈ e.parts) : q.Everywhere P :=
  fun p hp => h p (mem_all.2 (.inr ⟨q, hq, hp⟩))

theorem all_trans {e p q : Expr} (hq : q ∈ p.all) (hp : p ∈ e.all) : q ∈ e.all := by
  induction e using parts_induction with
  | h e ih =>
    rcases mem_all.1 hp with rfl | ⟨r, hr, hp⟩
    · exact hq
    · exact mem_all.2 (.inr ⟨r, hr, ih r hr hp⟩)

theorem Everywhere.of_mem {P : Expr → Prop} {e p : Expr} (h : e.Everywhere P) (hp : p ∈ e.all) : p.Everywhere P :=
  fun _ hq => h _ (all_trans hq hp)

theorem everywhere_of_all {P : Expr → Prop} [DecidablePred P] {e : Expr}
    (h : (e.all.all fun p => decide (P p)) = true) : e.Everywhere P :=
  fun p hp => of_decide_eq_true (List.all_eq_true.1 h p hp)

end Expr

/-! ## Names -/

/-- The names that a scope binds. -/
def scopeNames : Scope → List String
  | .params names => names
  | .letBody slots _ | .group slots _ _ => slots.map (·.1)
  | .withIn _ => []

theorem lexical?_of_not_mem {x : String} {sc : Scope} (h : x ∉ scopeNames sc) : sc.lexical? x = none := by
  have hlookup : ∀ slots : NamedSlots, x ∉ slots.map (·.1) → slots.lookup x = none := by
    intro slots hslots
    rw [List.lookup_eq_none_iff]
    intro p hp
    rw [bne_iff_ne]
    rintro rfl
    exact hslots (List.mem_map_of_mem hp)
  cases sc with
  | params names => exact if_neg h
  | letBody slots mono | group slots mono _ =>
    rw [Scope.lexical?, hlookup slots h]
    rfl
  | withIn r => rfl

theorem exists_lexical?_of_mem {x : String} {sc : Scope} (h : x ∈ scopeNames sc) : ∃ l, sc.lexical? x = some l := by
  have hlookup : ∀ slots : NamedSlots, x ∈ slots.map (·.1) → ∃ i, slots.lookup x = some i := by
    intro slots hslots
    obtain ⟨⟨y, i⟩, hp, rfl⟩ := List.mem_map.1 hslots
    refine Option.isSome_iff_exists.1 (List.lookup_isSome_iff.2 ⟨_, hp, ?_⟩)
    simp
  cases sc with
  | params names => exact ⟨_, if_pos h⟩
  | letBody slots mono | group slots mono _ =>
    obtain ⟨i, hi⟩ := hlookup slots h
    exact ⟨_, by rw [Scope.lexical?, hi]; rfl⟩
  | withIn r => cases h

theorem exists_scope_of_lexical {x : String} {scopes : List Scope} {l : Lexical}
    (h : Judging.lexicalIn scopes x = some l) : ∃ sc rest, sc :: rest <:+ scopes ∧ sc.lexical? x = some l := by
  obtain ⟨before, sc, rest, rfl, hsc, -⟩ := List.findSome?_eq_some_iff.1 h
  exact ⟨sc, rest, List.suffix_append before _, hsc⟩

theorem removeAll_entries (a : Assumptions) (names : List String) :
    (a.removeAll names).entries = a.entries.filter fun e => e.1 ∉ names := by
  unfold Assumptions.removeAll
  induction names generalizing a with
  | nil => simp
  | cons x names ih =>
    rw [List.foldl_cons, ih, Assumptions.remove, List.filter_filter]
    refine List.filter_congr fun e _ => ?_
    by_cases h : e.1 = x <;> simp [h]

/-! ## Patterns -/

/-- The defaults of a pattern, with the types of their fields. -/
def defaultsOf (fields : List Judgment.PatternField) : List (Judgment × Ty) :=
  fields.filterMap fun f => f.dflt.map fun d => (d, Ty.var f.var)

/-- The body and the defaults of a pattern, whose assumptions the pattern binds. -/
def patternParts (J : Judgment) (fields : List Judgment.PatternField) : Judgment :=
  .merged (J :: (defaultsOf fields).map (·.1)) J.ty

theorem patternLambda_eq (fields : List Judgment.PatternField) (whole : Option String) (isOpen : Bool) (J : Judgment) :
    Judgment.patternLambda fields whole isOpen J =
      let record := Ty.ofFields (fields.map fun f => (f.name, .var f.var)) isOpen
      let names := (fields.map fun f => (f.name, Ty.var f.var)) ++ whole.toList.map fun a => (a, record)
      { assumptions :=
          (patternParts J fields).assumptions.removeAll (scopeNames (.params (fields.map (·.name) ++ whole.toList)))
        constraints := J.constraints ++
          (defaultsOf fields).flatMap (fun d => .eq d.1.ty d.2 :: d.1.constraints) ++
          names.flatMap fun n => Judgment.tie (patternParts J fields).assumptions n.1 n.2
        ty := .fn record J.ty } := by
  have hentries : (patternParts J fields).assumptions =
      ⟨J.assumptions.entries ++ (defaultsOf fields).flatMap (·.1.assumptions.entries)⟩ := by
    simp only [patternParts, Judgment.merged, List.flatMap_cons, List.flatMap_map]
  have hnames : ∀ t : Ty, scopeNames (.params (fields.map (·.name) ++ whole.toList)) =
      ((fields.map fun f => (f.name, Ty.var f.var)) ++ whole.toList.map fun a => (a, t)).map (·.1) := by
    intro t
    simp [scopeNames, Function.comp_def]
  rw [hentries]
  simp only [hnames (Ty.ofFields (fields.map fun f => (f.name, .var f.var)) isOpen)]
  rfl

/-- The fields of a pattern, from its names, its variables and its defaults. -/
def patternFields (fs : List (String × Option Expr)) (vars : List Nat) (ds : List (Option Judgment)) :
    List Judgment.PatternField :=
  (fs.zip (vars.zip ds)).map fun ((name, _), v, d) => ⟨name, v, d⟩

theorem names_patternFields {fs : List (String × Option Expr)} {vars : List Nat} {ds : List (Option Judgment)}
    (hvars : vars.length = fs.length) (hds : ds.length = fs.length) :
    (patternFields fs vars ds).map (·.name) = fs.map (·.1) := by
  have hlength : fs.length ≤ (vars.zip ds).length := by simp [hvars, hds]
  have hzip : ((fs.zip (vars.zip ds)).map Prod.fst).map Prod.fst = fs.map Prod.fst := by
    rw [List.map_fst_zip hlength]
  rw [patternFields, List.map_map]
  rwa [List.map_map] at hzip

namespace Judging

theorem constant?_prim {x : String} {t : Ty} (h : constant? x = some t) : ∃ p, t = .prim p := by
  unfold constant? at h
  split at h <;> cases h <;> exact ⟨_, rfl⟩

/-! ## Slots -/

theorem run_changeSlots (g : Slots Pending Judgment → Except SlotError (Slots Pending Judgment)) (u : State) :
    (changeSlots g).run u =
      match g u.slots with
      | .ok slots => .ok ((), { u with slots })
      | .error e => .error (.slot e) := by
  show (match g u.slots with
    | .ok slots => modify fun s => { s with slots }
    | .error e => throw (.slot e) : Judging Unit).run u = _
  cases g u.slots <;> rfl

/-- What is left to do for a slot that waits. -/
def finishSlot (run : Runner) (ctx : Context) (slot : Nat) (p : Pending) : Judging Judgment := do
  let inner : Context := ⟨p.scopes, p.mono, slot :: ctx.forcing⟩
  let j ← match p.value with
    | .expr e => run inner (.expr e)
    | .field source name => do fieldOf (← run inner (.force source)).ty name
  changeSlots (·.finish slot j)
  return j

theorem run_force_start (run : Runner) (ctx : Context) (slot : Nat) (u : State) :
    (force run ctx slot).run u =
      (match u.slots.start slot with
      | .ok (.ready j, _) => return j
      | .ok (.pending p, slots) => do
        modify fun s => { s with slots }
        finishSlot run ctx slot p
      | .error (.loop _) => do
        note (.refersToItself slot)
        record fun _ => .looped ctx slot
        unknown
      | .error e => throw (.slot e) : Judging Judgment).run u := rfl

theorem run_force (run : Runner) (ctx : Context) (slot : Nat) (u : State) :
    (force run ctx slot).run u =
      match u.slot? slot with
      | none | some .reserved => .error (.slot (.unknown slot))
      | some (.deferred p) => (finishSlot run ctx slot p).run (u.put slot .forcing)
      | some .forcing =>
        (do note (.refersToItself slot); record fun _ => .looped ctx slot; unknown : Judging Judgment).run u
      | some (.forced j) => .ok (j, u) := by
  rw [run_force_start]
  unfold Slots.start State.slot?
  cases u.slots.slots[slot]? with
  | none => rfl
  | some c => cases c <;> rfl

end Judging

/-! ## Lists -/

theorem coe_flatMap {α β : Type} (l : List α) (f : α → List β) :
    ((l.flatMap f : List β) : Multiset β) = (l.map fun a => (f a : Multiset β)).sum := by
  induction l with
  | nil => rfl
  | cons a l ih => rw [List.flatMap_cons, ← Multiset.coe_add, ih, List.map_cons, List.sum_cons]

theorem exists_mem_zip {α β : Type} {xs : List α} {ys : List β} (hlength : ys.length = xs.length) {y : β}
    (hy : y ∈ ys) : ∃ x, (x, y) ∈ xs.zip ys := by
  rw [← List.map_snd_zip hlength.le, List.mem_map] at hy
  obtain ⟨⟨x, y⟩, hmem, rfl⟩ := hy
  exact ⟨x, hmem⟩

theorem mem_of_lookup {κ α : Type} [BEq κ] [LawfulBEq κ] {l : List (κ × α)} {k : κ} {a : α} (h : l.lookup k = some a) :
    (k, a) ∈ l := by
  obtain ⟨l₁, l₂, rfl, -⟩ := List.lookup_eq_some_iff.1 h
  simp

theorem exists_of_forall₂ {α β : Type} {R : α → β → Prop} {xs : List α} {ys : List β} (h : List.Forall₂ R xs ys) {y : β}
    (hy : y ∈ ys) : ∃ x ∈ xs, R x y := by
  induction h with
  | nil => cases hy
  | @cons a b xs ys hab _ ih =>
    rcases List.mem_cons.1 hy with rfl | hy
    · exact ⟨a, List.mem_cons_self, hab⟩
    · obtain ⟨x, hx, hxy⟩ := ih hy
      exact ⟨x, List.mem_cons_of_mem a hx, hxy⟩

theorem eq_map_of_forall₂ {α β : Type} {f : α → β} {xs : List α} {ys : List β}
    (h : List.Forall₂ (fun x y => y = f x) xs ys) : ys = xs.map f := by
  rw [← List.forall₂_eq_eq_eq, List.forall₂_map_right_iff]
  exact h.flip

end NixTyping
