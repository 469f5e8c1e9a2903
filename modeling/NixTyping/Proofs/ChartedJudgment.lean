import Mathlib
import NixTyping.Judge.Dependency
import NixTyping.Proofs.Chart
/-!
# Judgments at a place

An expression is `Layered` when its definitions reach each other through instances
only: no type that a recursive set shares with its definitions is set equal to
another one, `with` opens no set literal, and no definitions of a group need each
other. Here it is said what holds of the types, records, scopes and judgments that a
walk over such an expression meets at a place, and that each rule of judgment keeps
it (`Sound`).
-/

namespace NixTyping

open Judging

/-! ## Layered expressions -/

namespace Form

/-- The parts whose types are parts of the type of the whole. -/
def values : Form Expr → List Expr
  | .lambda _ body | .letIn _ body | .withIn _ body | .assertIn _ body => [body]
  | .set _ g => g.statics.filterMap (fun s => s.2.expr?) ++ g.sources
  | .list items => items
  | .select subject _ dflt => subject :: dflt.toList
  | _ => []

/-- The parts that give the whole its type, as it is or as a field of it. -/
def results : Form Expr → List Expr
  | .letIn _ body | .withIn _ body | .assertIn _ body => [body]
  | .ifElse _ yes _ => [yes]
  | .select subject _ dflt => subject :: dflt.toList
  | _ => []

/-- The parts whose types are set equal to others. -/
def equated : Form Expr → List Expr
  | .apply fn arg => [fn, arg]
  | .lambda param _ => param.defaults
  | .unary _ operand => [operand]
  | .binary op l r => if op.signature.isSome then [l, r] else []
  | .ifElse cond yes no => [cond, yes, no]
  | .assertIn cond _ => [cond]
  | _ => []

/-- What `with` brings into scope. -/
def opened : Form Expr → List Expr
  | .withIn scope _ => [scope]
  | _ => []

def isSet : Form Expr → Bool
  | .set _ _ => true
  | _ => false

def isRecSet : Form Expr → Bool
  | .set isRec _ => isRec
  | _ => false

theorem mem_parts_of_mem_values {f : Form Expr} {p : Expr} (h : p ∈ f.values) : p ∈ f.parts := by
  cases f with
  | set isRec g => exact List.mem_append_left _ h
  | select subject path dflt =>
    rcases List.mem_cons.1 h with rfl | h
    · exact List.mem_cons_self
    · exact List.mem_append_right (subject :: path) h
  | _ => simp_all [values, parts]

theorem mem_parts_of_mem_results {f : Form Expr} {p : Expr} (h : p ∈ f.results) : p ∈ f.parts := by
  cases f with
  | select subject path dflt => exact mem_parts_of_mem_values h
  | _ => simp_all [results, parts]

end Form

namespace Expr

/-- The property holds of the form of an expression, of the forms of the parts that
`next` selects, and so on. -/
inductive Along (P : Form Expr → Prop) (next : Form Expr → List Expr) : Expr → Prop where
  | intro {e : Expr} (here : P e.form) (parts : ∀ p ∈ next e.form, p.Along P next) : e.Along P next

theorem Along.here {P : Form Expr → Prop} {next : Form Expr → List Expr} {e : Expr} (h : e.Along P next) :
    P e.form := by
  cases h with
  | intro here _ => exact here

theorem Along.part {P : Form Expr → Prop} {next : Form Expr → List Expr} {e p : Expr} (h : e.Along P next)
    (hp : p ∈ next e.form) : p.Along P next := by
  cases h with
  | intro _ parts => exact parts p hp

def decideAlong {P : Form Expr → Prop} [DecidablePred P] {next : Form Expr → List Expr}
    (hnext : ∀ {f p}, p ∈ next f → p ∈ f.parts) (e : Expr) : Decidable (e.Along P next) :=
  have : DecidablePred fun p : { p // p ∈ next e.form } => p.1.Along P next := fun p => decideAlong hnext p.1
  decidable_of_iff (P e.form ∧ ∀ p ∈ (next e.form).attach, p.1.Along P next)
    ⟨fun h => ⟨h.1, fun p hp => h.2 ⟨p, hp⟩ (List.mem_attach _ _)⟩, fun h => ⟨h.here, fun p _ => h.part p.2⟩⟩
termination_by sizeOf e
decreasing_by exact sizeOf_mem_parts (hnext p.2)

/-- No part of the type is that of a recursive set. -/
def Sealed (e : Expr) : Prop := e.Along (fun f => f.isRecSet = false) Form.values

/-- The type is not that of a set literal. -/
def Indirect (e : Expr) : Prop := e.Along (fun f => f.isSet = false) Form.results

instance : DecidablePred Sealed := decideAlong Form.mem_parts_of_mem_values

instance : DecidablePred Indirect := decideAlong Form.mem_parts_of_mem_results

/-- Definitions reach each other through instances only. -/
structure Layered (e : Expr) : Prop where
  equated : ∀ p ∈ e.form.equated, p.Sealed
  opened : ∀ p ∈ e.form.opened, p.Indirect
  components : ∀ g ∈ e.form.group?, (Dependencies.ofBindings g).components.Nodup

instance : DecidablePred Layered := fun _ =>
  decidable_of_iff (_ ∧ _ ∧ _) ⟨fun h => ⟨h.1, h.2.1, h.2.2⟩, fun h => ⟨h.equated, h.opened, h.components⟩⟩

/-- A layered expression as it is walked: names are bound once. -/
structure Orderly (e : Expr) : Prop extends e.Layered where
  bindsOnce : e.BindsOnce

end Expr

/-! ## Types -/

/-- The variable is the type, or the type of a field that can be selected. -/
inductive Ty.Shows (v : Nat) : Ty → Prop where
  | var : Shows v (.var v)
  | field {fields : List (String × Ty)} {x : String} {t : Ty} {isOpen : Bool} (mem : (x, t) ∈ fields)
    (shows : Shows v t) : Shows v (.record fields isOpen)

theorem Ty.Shows.mem_free {v : Nat} {t : Ty} (h : t.Shows v) : v ∈ t.free := by
  induction h with
  | var => exact Ty.mem_free_var.2 rfl
  | field mem _ ih => exact Ty.mem_free_record.2 ⟨_, mem, ih⟩

/-- A type that can be selected from another one. -/
structure Ty.PartOf (t whole : Ty) : Prop where
  free : ∀ v ∈ t.free, v ∈ whole.free
  shows : ∀ v, t.Shows v → whole.Shows v

theorem Ty.PartOf.refl (t : Ty) : t.PartOf t := ⟨fun _ h => h, fun _ h => h⟩

theorem Ty.PartOf.trans {t u whole : Ty} (h : t.PartOf u) (h' : u.PartOf whole) : t.PartOf whole :=
  ⟨fun v hv => h'.free v (h.free v hv), fun v hv => h'.shows v (h.shows v hv)⟩

theorem Ty.partOf_field {fields : List (String × Ty)} {x : String} {t : Ty} (h : (x, t) ∈ fields) (isOpen : Bool) :
    t.PartOf (.record fields isOpen) :=
  ⟨fun _ hv => Ty.mem_free_record.2 ⟨_, h, hv⟩, fun _ hv => .field h hv⟩

theorem Ty.partOf_record (fields : List (String × Ty)) (isOpen isOpen' : Bool) :
    (Ty.record fields isOpen).PartOf (.record fields isOpen') := by
  refine ⟨fun v hv => Ty.mem_free_record.2 (Ty.mem_free_record.1 hv), fun v hv => ?_⟩
  cases hv with
  | field hmem hshows => exact .field hmem hshows

namespace Chart

section Types
variable {g g' : Chart} {M M' : VarSet} {u : Place} {t t' : Ty}

/-- All variables of the type were issued at the place itself. -/
def Made (g : Chart) (u : Place) (t : Ty) : Prop := ∀ v ∈ t.free, g.Issued v u

/-- All variables of the type were issued at the place or inside of it, and records
that are known for those it shows fix nothing beyond `M`. -/
def Owned (g : Chart) (M : VarSet) (u : Place) (t : Ty) : Prop :=
  ∀ v ∈ t.free, ∃ q N, g.vars[v]? = some (q, N) ∧ u <:+ q ∧ (t.Shows v → ∀ w ∈ N, w ∈ M)

/-- A variable for which no record is known. -/
def Fresh (g : Chart) (u : Place) (t : Ty) : Prop := ∃ v, t = .var v ∧ g.vars[v]? = some (u, ∅)

theorem Made.grow (h : g.Made u t) (hext : g.Extends g') : g'.Made u t := fun v hv => (h v hv).grow hext

theorem Owned.grow (h : g.Owned M u t) (hext : g.Extends g') : g'.Owned M u t := by
  intro v hv
  obtain ⟨q, N, hq, hrest⟩ := h v hv
  exact ⟨q, N, hext.var hq, hrest⟩

theorem Made.fixed (h : g.Made u t) : ∀ v ∈ t.free, g.Fixed u v := fun v hv => (h v hv).fixed

theorem Made.part (h : g.Made u t) (hpart : t'.PartOf t) : g.Made u t' := fun v hv => h v (hpart.free v hv)

theorem Owned.part (h : g.Owned M u t) (hpart : t'.PartOf t) : g.Owned M u t' := by
  intro v hv
  obtain ⟨q, N, hq, hu, hshows⟩ := h v (hpart.free v hv)
  exact ⟨q, N, hq, hu, fun hv => hshows (hpart.shows v hv)⟩

theorem Owned.within (h : g.Owned M u t) : ∀ v ∈ t.free, g.Within u v := by
  intro v hv
  obtain ⟨q, N, hq, hu, -⟩ := h v hv
  exact ⟨q, ⟨N, hq⟩, hu⟩

theorem Owned.around {p : Place} (h : g.Owned M u t) (hp : p <:+ u) : g.Owned M p t := by
  intro v hv
  obtain ⟨q, N, hq, hu, hshows⟩ := h v hv
  exact ⟨q, N, hq, hp.trans hu, hshows⟩

/-- A type from which nothing can be selected only has to be made inside of the place. -/
theorem owned_of_within (hshows : ∀ v, ¬ t.Shows v) (h : ∀ v ∈ t.free, g.Within u v) : g.Owned M u t := by
  intro v hv
  obtain ⟨q, ⟨N, hq⟩, hu⟩ := h v hv
  exact ⟨q, N, hq, hu, fun hv => (hshows v hv).elim⟩

theorem Fresh.made (h : g.Fresh u t) : g.Made u t := by
  obtain ⟨v, rfl, hv⟩ := h
  intro w hw
  rw [Ty.mem_free_var.1 hw]
  exact ⟨∅, hv⟩

theorem Fresh.owned (h : g.Fresh u t) : g.Owned M u t := by
  obtain ⟨v, rfl, hv⟩ := h
  intro w hw
  rw [Ty.mem_free_var.1 hw]
  exact ⟨u, ∅, hv, List.suffix_refl u, fun _ w hw => (VarSet.mem_empty hw).elim⟩

theorem made_prim (g : Chart) (u : Place) (p : Prim) : g.Made u (.prim p) := fun _ hv => absurd hv Ty.mem_free_prim

theorem owned_prim (g : Chart) (M : VarSet) (u : Place) (p : Prim) : g.Owned M u (.prim p) :=
  fun _ hv => absurd hv Ty.mem_free_prim

theorem made_fn {p b : Ty} (hp : g.Made u p) (hb : g.Made u b) : g.Made u (.fn p b) :=
  fun v hv => (Ty.mem_free_fn.1 hv).elim (hp v) (hb v)

theorem owned_fn {p b : Ty} (hp : g.Made u p) (hb : g.Owned M' u b) : g.Owned M u (.fn p b) := by
  refine owned_of_within (fun v hv => by cases hv) fun v hv => ?_
  rcases Ty.mem_free_fn.1 hv with hv | hv
  · exact ⟨u, hp v hv, List.suffix_refl u⟩
  · exact hb.within v hv

theorem made_list {ts : List Ty} (h : ∀ t ∈ ts, g.Made u t) : g.Made u (.list ts) := by
  intro v hv
  obtain ⟨t, ht, hv⟩ := Ty.mem_free_list.1 hv
  exact h t ht v hv

theorem owned_list {ts : List Ty} (h : ∀ t ∈ ts, g.Owned M u t) : g.Owned M u (.list ts) := by
  refine owned_of_within (fun v hv => by cases hv) fun v hv => ?_
  obtain ⟨t, ht, hv⟩ := Ty.mem_free_list.1 hv
  exact (h t ht).within v hv

theorem made_ofFields {fields : List (String × Ty)} (isOpen : Bool) (h : ∀ f ∈ fields, g.Made u f.2) :
    g.Made u (.ofFields fields isOpen) := by
  intro v hv
  obtain ⟨f, hf, hv⟩ := Ty.mem_free_record.1 hv
  exact h f (mem_of_mem_sortKeys hf) v hv

theorem owned_ofFields {fields : List (String × Ty)} (isOpen : Bool) (h : ∀ f ∈ fields, g.Owned M u f.2) :
    g.Owned M u (.ofFields fields isOpen) := by
  intro v hv
  obtain ⟨f, hf, hv⟩ := Ty.mem_free_record.1 hv
  obtain ⟨q, N, hq, hu, -⟩ := h f (mem_of_mem_sortKeys hf) v hv
  refine ⟨q, N, hq, hu, fun hshows => ?_⟩
  cases hshows with
  | field hmem hshows =>
    obtain ⟨q', N', hq', -, hsub⟩ := h _ (mem_of_mem_sortKeys hmem) v hshows.mem_free
    rw [hq] at hq'
    obtain ⟨-, rfl⟩ := Prod.mk.inj (Option.some.inj hq')
    exact hsub hshows

end Types

/-! ## Records -/

/-- The type was taken out of a record for which `M` fixes all that a use of it needs. -/
def Taken (g : Chart) (M : VarSet) (t : Ty) : Origin → Prop
  | .here => False
  | .letBound N => (∀ v ∈ N, v ∈ M) ∧ ∃ h ∈ g.closed, h.mono = N ∧ ∀ v ∈ t.free, g.Within h v
  | .ambient vars => ∀ v ∈ t.free, v ∈ vars

section Records
variable {g g' : Chart} {M M' : VarSet} {t t' : Ty} {o : Origin}

theorem Taken.grow (h : g.Taken M t o) (hext : g.Extends g') : g'.Taken M t o := by
  cases o with
  | here => exact h
  | letBound N =>
    obtain ⟨hN, p, hp, hmono, hwithin⟩ := h
    exact ⟨hN, p, hext.mem_closed hp, hmono, fun v hv => (hwithin v hv).grow hext⟩
  | ambient vars => exact h

theorem Taken.mono (h : g.Taken M t o) (hM : ∀ v ∈ M, v ∈ M') : g.Taken M' t o := by
  cases o with
  | here => exact h
  | letBound N => exact ⟨fun v hv => hM v (h.1 v hv), h.2⟩
  | ambient vars => exact h

theorem Taken.part (h : g.Taken M t o) (hpart : t'.PartOf t) : g.Taken M t' o := by
  cases o with
  | here => exact h
  | letBound N =>
    obtain ⟨hN, p, hp, hmono, hwithin⟩ := h
    exact ⟨hN, p, hp, hmono, fun v hv => hwithin v (hpart.free v hv)⟩
  | ambient vars => exact fun v hv => h v (hpart.free v hv)

end Records

/-! ## Scopes -/

/-- The slot holds a definition that lies around the place, under the given scopes. -/
def Seen (g : Chart) (N : VarSet) (u : Place) (home : List Scope) (i : Nat) : Prop :=
  ∃ outer, outer <:+ u ∧ g.slots[i]? = some (.slot i N :: outer, home)

/-- The scopes around a place: names stand for definitions that lie around it, a
group has no two definitions in one component, and opened records were taken out of
a binding. -/
inductive Charted (g : Chart) (M : VarSet) (u : Place) : List Scope → Prop where
  | nil : Charted g M u []
  | params {scopes : List Scope} (names : List String) (rest : Charted g M u scopes) :
    Charted g M u (.params names :: scopes)
  | letBody {scopes : List Scope} {slots : NamedSlots} {N : VarSet} (fixed : ∀ v ∈ N, v ∈ M)
    (seen : ∀ x ∈ slots, g.Seen N u scopes x.2) (rest : Charted g M u scopes) :
    Charted g M u (.letBody slots N :: scopes)
  | group {scopes : List Scope} {slots : NamedSlots} {N : VarSet} {components : List (Nat × Nat)}
    (fixed : ∀ v ∈ N, v ∈ M) (seen : ∀ x ∈ slots, g.Seen N u scopes x.2)
    (single : ∀ i j c, components.lookup i = some c → components.lookup j = some c → i = j)
    (rest : Charted g M u scopes) : Charted g M u (.group slots N components :: scopes)
  | withIn {scopes : List Scope} {r : Option KnownRecord}
    (taken : ∀ k, r = some k → g.Taken M (.record k.fields false) k.origin) (rest : Charted g M u scopes) :
    Charted g M u (.withIn r :: scopes)

/-- The slots whose names the bodies of a `let` around see. -/
def bodySlots (scopes : List Scope) : List Nat :=
  scopes.flatMap fun
    | .letBody slots _ => slots.map (·.2)
    | _ => []

section Scopes
variable {g g' : Chart} {M M' N : VarSet} {u u' : Place} {scopes home : List Scope} {i : Nat} {x : String}

theorem Seen.grow (h : g.Seen N u home i) (hext : g.Extends g') : g'.Seen N u home i := by
  obtain ⟨outer, houter, hslot⟩ := h
  exact ⟨outer, houter, hext.slot hslot⟩

theorem Seen.inside (h : g.Seen N u home i) (hu : u <:+ u') : g.Seen N u' home i := by
  obtain ⟨outer, houter, hslot⟩ := h
  exact ⟨outer, houter.trans hu, hslot⟩

/-- Scopes stay charted where the chart has grown, inside of the place and where more
is fixed. -/
theorem Charted.weaken (h : g.Charted M u scopes) (hext : g.Extends g') (hM : ∀ v ∈ M, v ∈ M') (hu : u <:+ u') :
    g'.Charted M' u' scopes := by
  induction h with
  | nil => exact .nil
  | params names _ ih => exact .params names ih
  | letBody fixed seen _ ih =>
    exact .letBody (fun v hv => hM v (fixed v hv)) (fun x hx => ((seen x hx).grow hext).inside hu) ih
  | group fixed seen single _ ih =>
    exact .group (fun v hv => hM v (fixed v hv)) (fun x hx => ((seen x hx).grow hext).inside hu) single ih
  | withIn taken _ ih => exact .withIn (fun k hk => ((taken k hk).grow hext).mono hM) ih

theorem Charted.grow (h : g.Charted M u scopes) (hext : g.Extends g') : g'.Charted M u scopes :=
  h.weaken hext (fun _ hv => hv) (List.suffix_refl u)

theorem Charted.of_suffix (h : g.Charted M u scopes) (hsuffix : home <:+ scopes) : g.Charted M u home := by
  obtain ⟨before, rfl⟩ := hsuffix
  induction before with
  | nil => exact h
  | cons sc before ih =>
    cases h with
    | params _ rest | letBody _ _ rest | group _ _ _ rest | withIn _ rest => exact ih rest

/-- What a name of a `let` stands for in the body. -/
theorem Charted.letBody_of_lexical (h : g.Charted M u scopes) (hx : lexicalIn scopes x = some (.letBody i N)) :
    ∃ home, home <:+ scopes ∧ (∀ v ∈ N, v ∈ M) ∧ g.Seen N u home i ∧ i ∈ bodySlots scopes := by
  obtain ⟨sc, rest, hsuffix, hsc⟩ := exists_scope_of_lexical hx
  have hscope := h.of_suffix hsuffix
  cases hscope with
  | @letBody _ slots N' fixed seen _ =>
    simp only [Scope.lexical?, Option.map_eq_some_iff, Lexical.letBody.injEq] at hsc
    obtain ⟨k, hk, rfl, rfl⟩ := hsc
    have hmem := mem_of_lookup hk
    refine ⟨rest, (List.suffix_cons _ _).trans hsuffix, fixed, seen _ hmem, ?_⟩
    exact List.mem_flatMap.2 ⟨_, hsuffix.subset List.mem_cons_self, List.mem_map_of_mem hmem⟩
  | params | group | withIn => simp [Scope.lexical?] at hsc

/-- What a name stands for in the definitions of its own group. -/
theorem Charted.group_of_lexical {components : List (Nat × Nat)} (h : g.Charted M u scopes)
    (hx : lexicalIn scopes x = some (.group i N components)) :
    ∃ home, home <:+ scopes ∧ (∀ v ∈ N, v ∈ M) ∧ g.Seen N u home i ∧
      ∀ i j c, components.lookup i = some c → components.lookup j = some c → i = j := by
  obtain ⟨sc, rest, hsuffix, hsc⟩ := exists_scope_of_lexical hx
  have hscope := h.of_suffix hsuffix
  cases hscope with
  | @group _ slots N' components' fixed seen single _ =>
    simp only [Scope.lexical?, Option.map_eq_some_iff, Lexical.group.injEq] at hsc
    obtain ⟨k, hk, rfl, rfl, rfl⟩ := hsc
    exact ⟨rest, (List.suffix_cons _ _).trans hsuffix, fixed, seen _ (mem_of_lookup hk), single⟩
  | params | letBody | withIn => simp [Scope.lexical?] at hsc

theorem Charted.opened (h : g.Charted M u scopes) {k : KnownRecord} (hk : some k ∈ scopes.filterMap Scope.with?) :
    g.Taken M (.record k.fields false) k.origin := by
  induction h with
  | nil => cases hk
  | params _ _ ih | letBody _ _ _ ih | group _ _ _ _ ih => exact ih hk
  | withIn taken _ ih =>
    rcases List.mem_cons.1 hk with hk | hk
    · exact taken k hk.symm
    · exact ih hk

/-- A slot that a body sees is not among those that its own scopes show. -/
theorem Charted.length_home (h : g.Charted M u scopes) {p : Place} (hi : i ∈ bodySlots scopes)
    (hslot : g.slots[i]? = some (p, home)) : home.length < scopes.length := by
  induction h with
  | nil => cases hi
  | params _ _ ih | group _ _ _ _ ih | withIn _ _ ih => exact Nat.lt_succ_of_lt (ih hi)
  | @letBody scopes slots N' fixed seen _ ih =>
    rcases List.mem_append.1 hi with hi | hi
    · obtain ⟨x, hx, rfl⟩ := List.mem_map.1 hi
      obtain ⟨outer, -, hseen⟩ := seen x hx
      rw [hslot] at hseen
      obtain ⟨-, rfl⟩ := Prod.mk.inj (Option.some.inj hseen)
      exact Nat.lt_succ_self _
    · exact Nat.lt_succ_of_lt (ih hi)

end Scopes

/-! ## Judgments -/

/-- An occurrence of a name, at a variable that was issued at a place. No group
around binds it, and a `let` that does has closed the definition of the name. -/
structure Assumed (g : Chart) (M : VarSet) (scopes : List Scope) (x : String) (o : Nat) (p : Place) : Prop where
  issued : g.Issued o p
  fixed : ∀ v ∈ M, g.Fixed p v
  letBody : ∀ i N, lexicalIn scopes x = some (.letBody i N) → ∃ h, g.hosts.lookup i = some h ∧ g.Clear p h
  group : ∀ i N components, lexicalIn scopes x ≠ some (.group i N components)

/-- The constraints of a judgment are settled, and its assumptions can be bound by the
scopes around. -/
structure Sound (g : Chart) (M : VarSet) (scopes : List Scope) (J : Judgment) : Prop where
  constraints : ∀ c ∈ J.constraints, g.Settled c
  assumed : ∀ e ∈ J.assumptions.entries, ∃ o p, e.2 = .var o ∧ g.Assumed M scopes e.1 o p

section Judgments
variable {g g' : Chart} {M M' : VarSet} {u : Place} {scopes : List Scope} {sc : Scope} {J : Judgment} {x : String}

theorem Assumed.grow {o : Nat} {p : Place} (h : g.Assumed M scopes x o p) (hext : g.Extends g') :
    g'.Assumed M scopes x o p := by
  refine ⟨h.issued.grow hext, fun v hv => (h.fixed v hv).grow hext, fun i N hx => ?_, h.group⟩
  obtain ⟨q, hq, hclear⟩ := h.letBody i N hx
  exact ⟨q, hext.host hq, hclear.grow hext⟩

theorem Assumed.leave {o : Nat} {p : Place} (h : g.Assumed M' (sc :: scopes) x o p) (hM : ∀ v ∈ M, v ∈ M')
    (hx : x ∉ scopeNames sc) : g.Assumed M scopes x o p := by
  have hlexical := lexicalIn_of_none (lexical?_of_not_mem hx) scopes
  refine ⟨h.issued, fun v hv => h.fixed v (hM v hv), fun i N hi => ?_, fun i N components hi => ?_⟩
  · exact h.letBody i N (hlexical.trans hi)
  · exact h.group i N components (hlexical.trans hi)

theorem Sound.grow (h : g.Sound M scopes J) (hext : g.Extends g') : g'.Sound M scopes J := by
  refine ⟨fun c hc => (h.constraints c hc).grow hext, fun e he => ?_⟩
  obtain ⟨o, p, ho, hassumed⟩ := h.assumed e he
  exact ⟨o, p, ho, hassumed.grow hext⟩

theorem sound_ofTy (g : Chart) (M : VarSet) (scopes : List Scope) (t : Ty) : g.Sound M scopes (.ofTy t) :=
  ⟨by rintro c ⟨⟩, by rintro e ⟨⟩⟩

theorem sound_constrained {c : Constraint} (hc : g.Settled c) (t : Ty) : g.Sound M scopes (.constrained c t) := by
  refine ⟨fun c' hc' => ?_, by rintro e ⟨⟩⟩
  rwa [List.mem_singleton.1 hc']

theorem sound_reference {o : Nat} (h : g.Assumed M scopes x o u) : g.Sound M scopes (.reference x (.var o)) := by
  refine ⟨by rintro c ⟨⟩, fun e he => ?_⟩
  obtain rfl := List.mem_singleton.1 he
  exact ⟨o, u, rfl, h⟩

theorem sound_merged {js : List Judgment} (h : ∀ j ∈ js, g.Sound M scopes j) (t : Ty) :
    g.Sound M scopes (.merged js t) := by
  refine ⟨fun c hc => ?_, fun e he => ?_⟩
  · obtain ⟨j, hj, hc⟩ := List.mem_flatMap.1 hc
    exact (h j hj).constraints c hc
  · obtain ⟨j, hj, he⟩ := List.mem_flatMap.1 he
    exact (h j hj).assumed e he

theorem Sound.require (h : g.Sound M scopes J) {cs : List Constraint} (hcs : ∀ c ∈ cs, g.Settled c) :
    g.Sound M scopes (J.require cs) :=
  { h with constraints := fun c hc => (List.mem_append.1 hc).elim (h.constraints c) (hcs c) }

/-- Equations between types that were made at one place. -/
theorem settled_eq {l r : Ty} (hl : ∀ v ∈ l.free, g.Fixed u v) (hr : ∀ v ∈ r.free, g.Fixed u v) :
    g.Settled (.eq l r) :=
  settled_of_fixed u (by simp) fun v hv => hv.elim (hl v) (hr v)

/-- The assumptions that a scope does not bind are left. -/
theorem Sound.leave (h : g.Sound M' (sc :: scopes) J) (hM : ∀ v ∈ M, v ∈ M') {a : Assumptions} {cs : List Constraint}
    (ha : ∀ e ∈ a.entries, e ∈ J.assumptions.entries ∧ e.1 ∉ scopeNames sc) (hcs : ∀ c ∈ cs, g.Settled c) (t : Ty) :
    g.Sound M scopes ⟨a, cs, t⟩ := by
  refine ⟨hcs, fun e he => ?_⟩
  obtain ⟨hmem, hx⟩ := ha e he
  obtain ⟨o, p, ho, hassumed⟩ := h.assumed e hmem
  exact ⟨o, p, ho, hassumed.leave hM hx⟩

/-- A group binds no assumption. -/
theorem Sound.leave_group {slots : NamedSlots} {N : VarSet} {components : List (Nat × Nat)}
    (h : g.Sound M (.group slots N components :: scopes) J) : g.Sound M scopes J := by
  refine h.leave (fun _ hv => hv) (fun e he => ⟨he, fun hx => ?_⟩) h.constraints J.ty
  obtain ⟨o, p, -, hassumed⟩ := h.assumed e he
  obtain ⟨l, hl⟩ := exists_lexical?_of_mem hx
  obtain ⟨i, hi, rfl⟩ := Option.map_eq_some_iff.1 hl
  exact hassumed.group i N components (lexicalIn_of_some hl scopes)

/-- A name is tied to a type that is fixed wherever the name occurs. -/
theorem Sound.tie (h : g.Sound M scopes J) {t : Ty} (ht : ∀ v ∈ t.free, v ∈ M) :
    ∀ c ∈ Judgment.tie J.assumptions x t, g.Settled c := by
  intro c hc
  obtain ⟨o, ho, rfl⟩ := List.mem_map.1 hc
  obtain ⟨w, p, rfl, hassumed⟩ := h.assumed _ (Assumptions.mem_lookup.1 ho)
  refine settled_eq (u := p) (fun v hv => ?_) fun v hv => hassumed.fixed v (ht v hv)
  rw [Ty.mem_free_var.1 hv]
  exact hassumed.issued.fixed

theorem sound_lambda {v : Nat} (h : g.Sound M' (.params [x] :: scopes) J) (hM : ∀ w ∈ M, w ∈ M') (hv : v ∈ M') :
    g.Sound M scopes (.lambda x (.var v) J) := by
  refine h.leave hM (fun e he => ?_) (fun c hc => ?_) _
  · obtain ⟨hmem, hne⟩ := List.mem_filter.1 he
    exact ⟨hmem, fun hx => by simp [List.mem_singleton.1 hx] at hne⟩
  · rcases List.mem_append.1 hc with hc | hc
    · exact h.constraints c hc
    · exact h.tie (fun w hw => Ty.mem_free_var.1 hw ▸ hv) c hc

theorem sound_patternLambda {fields : List Judgment.PatternField} {whole : Option String} (isOpen : Bool)
    (h : g.Sound M' (.params (fields.map (·.name) ++ whole.toList) :: scopes) J) (hM : ∀ w ∈ M, w ∈ M')
    (hvars : ∀ f ∈ fields, f.var ∈ M' ∧ g.Issued f.var u)
    (hdefaults : ∀ f ∈ fields, ∀ d, f.dflt = some d →
      g.Sound M' (.params (fields.map (·.name) ++ whole.toList) :: scopes) d ∧ g.Made u d.ty) :
    g.Sound M scopes (.patternLambda fields whole isOpen J) := by
  have hdefault : ∀ d ∈ defaultsOf fields, ∃ f ∈ fields, f.dflt = some d.1 ∧ d.2 = .var f.var := by
    intro d hd
    obtain ⟨f, hf, hfd⟩ := List.mem_filterMap.1 hd
    obtain ⟨j, hj, rfl⟩ := Option.map_eq_some_iff.1 hfd
    exact ⟨f, hf, hj, rfl⟩
  have hparts : g.Sound M' (.params (fields.map (·.name) ++ whole.toList) :: scopes) (patternParts J fields) := by
    refine sound_merged (fun j hj => ?_) _
    rcases List.mem_cons.1 hj with rfl | hj
    · exact h
    · obtain ⟨d, hd, rfl⟩ := List.mem_map.1 hj
      obtain ⟨f, hf, hfd, -⟩ := hdefault d hd
      exact (hdefaults f hf d.1 hfd).1
  rw [patternLambda_eq]
  refine hparts.leave hM (fun e he => ?_) (fun c hc => ?_) _
  · rw [removeAll_entries] at he
    obtain ⟨hmem, hx⟩ := List.mem_filter.1 he
    exact ⟨hmem, by simpa using hx⟩
  · rcases List.mem_append.1 hc with hc | hc
    · rcases List.mem_append.1 hc with hc | hc
      · exact h.constraints c hc
      · obtain ⟨d, hd, hc⟩ := List.mem_flatMap.1 hc
        obtain ⟨f, hf, hfd, hty⟩ := hdefault d hd
        obtain ⟨hsound, hmade⟩ := hdefaults f hf d.1 hfd
        rcases List.mem_cons.1 hc with rfl | hc
        · refine settled_eq hmade.fixed fun v hv => ?_
          rw [hty] at hv
          rw [Ty.mem_free_var.1 hv]
          exact (hvars f hf).2.fixed
        · exact hsound.constraints c hc
    · obtain ⟨n, hn, hc⟩ := List.mem_flatMap.1 hc
      have hfield : ∀ f ∈ fields, ∀ v ∈ (Ty.var f.var).free, v ∈ M' := fun f hf v hv =>
        Ty.mem_free_var.1 hv ▸ (hvars f hf).1
      refine hparts.tie (fun v hv => ?_) c hc
      rcases List.mem_append.1 hn with hn | hn
      · obtain ⟨f, hf, rfl⟩ := List.mem_map.1 hn
        exact hfield f hf v hv
      · obtain ⟨a, -, rfl⟩ := List.mem_map.1 hn
        obtain ⟨p, hp, hv⟩ := Ty.mem_free_record.1 hv
        obtain ⟨f, hf, rfl⟩ := List.mem_map.1 (mem_of_mem_sortKeys hp)
        exact hfield f hf v hv

/-- A `let`, whose names have the types of closed definitions. -/
theorem sound_letIn {bound : List (String × Ty)} {group : List Judgment} {names : NamedSlots}
    (hgroup : ∀ j ∈ group, g.Sound M scopes j) (h : g.Sound M (.letBody names M :: scopes) J)
    (hnames : bound.map (·.1) = names.map (·.1))
    (hhosts : ∀ b ∈ bound, ∀ i, names.lookup b.1 = some i →
      ∀ p, g.hosts.lookup i = some p → p.mono = M ∧ ∀ v ∈ b.2.free, g.Within p v) :
    g.Sound M scopes (.letIn bound group J M) := by
  refine ⟨fun c hc => ?_, fun e he => ?_⟩
  · rcases List.mem_append.1 hc with hc | hc
    · rcases List.mem_append.1 hc with hc | hc
      · obtain ⟨j, hj, hc⟩ := List.mem_flatMap.1 hc
        exact (hgroup j hj).constraints c hc
      · exact h.constraints c hc
    · obtain ⟨b, hb, hc⟩ := List.mem_flatMap.1 hc
      obtain ⟨o, ho, rfl⟩ := List.mem_map.1 hc
      obtain ⟨w, p, rfl, hassumed⟩ := h.assumed _ (Assumptions.mem_lookup.1 ho)
      -- the name is bound by the body's scope, so its definition is closed and clear of the occurrence
      have hmem : b.1 ∈ scopeNames (.letBody names M) := by
        show b.1 ∈ names.map (·.1)
        rw [← hnames]
        exact List.mem_map_of_mem hb
      obtain ⟨l, hl⟩ := exists_lexical?_of_mem hmem
      obtain ⟨i, hi, rfl⟩ := Option.map_eq_some_iff.1 hl
      obtain ⟨q, hq, hclear⟩ := hassumed.letBody i M (lexicalIn_of_some hl scopes)
      obtain ⟨hmono, hwithin⟩ := hhosts b hb i hi q hq
      refine settled_implicit (fun v hv => ?_) hassumed.fixed hmono hwithin hclear
      rw [Ty.mem_free_var.1 hv]
      exact hassumed.issued.fixed
  · rcases List.mem_append.1 he with he | he
    · obtain ⟨j, hj, he⟩ := List.mem_flatMap.1 he
      exact (hgroup j hj).assumed e he
    · rw [removeAll_entries] at he
      obtain ⟨hmem, hx⟩ := List.mem_filter.1 he
      obtain ⟨o, p, ho, hassumed⟩ := h.assumed e hmem
      refine ⟨o, p, ho, hassumed.leave (fun _ hv => hv) ?_⟩
      show e.1 ∉ names.map (·.1)
      rw [← hnames]
      simpa using hx

end Judgments

end Chart

end NixTyping
