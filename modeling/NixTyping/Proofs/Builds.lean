import Mathlib
import NixTyping.Proofs.SyntaxParts
import NixTyping.Proofs.WalkBasics
/-!
# Computations that build expressions

A group is what the entries that are added to it make of it: the first entry that binds a
name wins, all that goes into one set is merged there, and a name is taken from the source that
its own entry brings (`Bindings.Merges`). An expression is tidy when its parts are older than
it and its groups are what entries of the text make of them (`Expr.Tidy`).

The numbers of expressions are counted with multiplicities. What a computation builds has
the numbers of what it was given and those that are issued meanwhile, each once (`Builds`); so
nothing has to be said about how the numbers of two parts keep apart.
-/

namespace NixTyping

/-! ## Groups and the entries they are made of -/

/-- The bindings of a `let` or of a set. -/
def Form.bindings? {α : Type} : Form α → Option (Bindings α)
  | .letIn g _ | .set _ g => some g
  | _ => none

theorem Form.bindings?_of_group {α : Type} {f : Form α} {g : Bindings α} (h : f.group? = some g) :
    f.bindings? = some g := by
  cases f with
  | letIn g' body => exact h
  | set recursive g' => cases recursive <;> first | exact h | cases h
  | _ => cases h

/-- The tree is lowered to the expression. -/
def Tree.Becomes (text : String) (t : Tree) (e : Expr) : Prop := ∃ s, ((t.lower text).run s).1 = e

/-- The step of a path is lowered to the expression. -/
def Attr.Becomes (text : String) (a : Attr Tree) (e : Expr) : Prop := ∃ s, ((Tree.lowerAttr text a).run s).1 = e

/-- Of the entries, `c` is the first that binds the name, and `before` are those before it. -/
def First (cs : List (Entry Tree)) (name : String) (before : List (Entry Tree)) (c : Entry Tree) : Prop :=
  ∃ after, cs = before ++ c :: after ∧ name ∉ before.flatMap Entry.binds ∧ name ∈ c.binds

/-- The binding is what the first entry for its name makes it, and nothing is ever added to it. -/
inductive Binding.Settles (text : String) (cs : List (Entry Tree)) (name : String) : Binding Expr → Prop where
  | expr {before : List (Entry Tree)} {a : Attr Tree} {value : Tree} {e : Expr}
    (first : First cs name before (.bind [a] value)) (plain : value.isSet = false) (becomes : value.Becomes text e) :
    Settles text cs name (.expr e)
  | inherit {before : List (Entry Tree)} {names : List (Attr Tree)} {e : Expr}
    (first : First cs name before (.inherit none names)) (form : e.form = .ref name) : Settles text cs name (.inherit e)
  | inheritFrom {before : List (Entry Tree)} {t : Tree} {names : List (Attr Tree)}
    (first : First cs name before (.inherit (some t) names)) :
    Settles text cs name (.inheritFrom (before.filterMap Entry.source?).length)

mutual

/-- The group is what the entries make of it: it has each of their names once, where it is bound first, and their
sources and computed names in order. -/
inductive Bindings.Merges (text : String) : List (Entry Tree) → Bindings Expr → Prop where
  | mk {cs : List (Entry Tree)} {g : Bindings Expr} (names : g.names = distinct (cs.flatMap Entry.binds))
    (statics : ∀ s ∈ g.statics, Binding.Merges text cs s.1 s.2)
    (sources : List.Forall₂ (Tree.Becomes text) (cs.filterMap Entry.source?) g.sources)
    (computed : List.Forall₂ (fun a d => Attr.Becomes text a d.1) (cs.flatMap Entry.computed) g.dynamics) :
    Bindings.Merges text cs g

/-- If the first entry for a name makes a set of it, the set is what all entries add to it. -/
inductive Binding.Merges (text : String) : List (Entry Tree) → String → Binding Expr → Prop where
  | settles {cs : List (Entry Tree)} {name : String} {b : Binding Expr} (settles : b.Settles text cs name) :
    Binding.Merges text cs name b
  | set {cs before : List (Entry Tree)} {name : String} {c : Entry Tree} {e : Expr} {g : Bindings Expr}
    (first : First cs name before c) (opens : c.opens = true) (form : e.form = .set (cs.any (Entry.recursive name)) g)
    (merges : Bindings.Merges text (cs.flatMap (Entry.under name)) g) : Binding.Merges text cs name (.expr e)

end

section Merges
variable {text : String} {cs : List (Entry Tree)} {g : Bindings Expr}

theorem Bindings.Merges.nodup (h : g.Merges text cs) : g.names.Nodup := by
  cases h with
  | mk names _ _ _ => exact names ▸ nodup_distinct _

/-- The source of a name is the one that stands in the entry. -/
theorem Bindings.Merges.source (h : g.Merges text cs) {name : String} {i : Nat}
    (hmem : (name, .inheritFrom i) ∈ g.statics) : ∃ before t names e, First cs name before (.inherit (some t) names) ∧
      i = (before.filterMap Entry.source?).length ∧ g.sources[i]? = some e ∧ t.Becomes text e := by
  cases h with
  | mk _ statics sources _ =>
    have hb := statics _ hmem
    obtain ⟨before, t, names, hi, hfirst⟩ : ∃ before t names, i = (before.filterMap Entry.source?).length ∧
        First cs name before (.inherit (some t) names) := by
      cases hb with
      | settles settles =>
        cases settles with
        | inheritFrom first => exact ⟨_, _, _, rfl, first⟩
    obtain ⟨after, rfl, -⟩ := id hfirst
    have ht : ((before ++ .inherit (some t) names :: after).filterMap Entry.source?)[i]? = some t := by
      rw [hi, List.filterMap_append, List.getElem?_append_right le_rfl, Nat.sub_self]
      rfl
    obtain ⟨hlt, hget⟩ := List.getElem?_eq_some_iff.1 ht
    have hlt' := sources.length_eq ▸ hlt
    refine ⟨before, t, names, _, hfirst, hi, List.getElem?_eq_getElem hlt', ?_⟩
    have hbecomes := sources.get hlt hlt'
    rwa [List.get_eq_getElem, hget] at hbecomes

theorem Bindings.Merges.sourced (h : g.Merges text cs) : g.Sourced := by
  intro name i hmem
  obtain ⟨before, t, names, e, -, -, he, -⟩ := h.source hmem
  exact (List.getElem?_eq_some_iff.1 he).1

end Merges

/-! ## Tidy expressions and their numbers -/

namespace Expr

/-- The parts of the expression were built before it. Its bindings are what entries of the text make of them. -/
structure InOrder (text : String) (root : Tree) (e : Expr) : Prop where
  older : ∀ p ∈ e.parts, p.id < e.id
  group : ∀ g, e.form.bindings? = some g → ∃ cs, root.Forms cs ∧ g.Merges text cs

def Tidy (text : String) (root : Tree) (e : Expr) : Prop := e.Everywhere (InOrder text root)

theorem tidy_of_parts {text : String} {root : Tree} {e : Expr} (h : e.InOrder text root)
    (hparts : ∀ p ∈ e.parts, p.Tidy text root) : e.Tidy text root := by
  intro p hp
  rcases mem_all.1 hp with rfl | ⟨q, hq, hp⟩
  · exact h
  · exact hparts q hq p hp

/-- The numbers of an expression and of everything under it. -/
def ids (e : Expr) : Multiset Nat := (e.all.map id : List Nat)

end Expr

/-- The numbers of some expressions. -/
def tally (es : List Expr) : Multiset Nat := (es.map Expr.ids).sum

@[simp] theorem tally_nil : tally [] = 0 := rfl

@[simp] theorem tally_cons (e : Expr) (es : List Expr) : tally (e :: es) = e.ids + tally es := rfl

@[simp] theorem tally_append (es es' : List Expr) : tally (es ++ es') = tally es + tally es' := by
  rw [tally, List.map_append, List.sum_append, tally, tally]

theorem Expr.ids_eq (e : Expr) : e.ids = {e.id} + tally e.parts := by
  rw [ids, all_eq, List.map_cons, ← Multiset.cons_coe, List.map_flatMap, coe_flatMap, Multiset.singleton_add]
  rfl

theorem id_mem_tally {e : Expr} {es : List Expr} (h : e ∈ es) : e.id ∈ tally es := by
  induction es with
  | nil => cases h
  | cons e' es ih =>
    rw [tally_cons, Multiset.mem_add]
    rcases List.mem_cons.1 h with rfl | h
    · exact .inl (by rw [Expr.ids_eq]; simp)
    · exact .inr (ih h)

/-- The numbers from one on, below another. -/
def numbers (n n' : Nat) : Multiset Nat := (List.range' n (n' - n) : List Nat)

theorem numbers_self (n : Nat) : numbers n n = 0 := by simp [numbers]

theorem numbers_succ (n : Nat) : numbers n (n + 1) = {n} := by simp [numbers]

theorem numbers_add {a b c : Nat} (h : a ≤ b) (h' : b ≤ c) : numbers a b + numbers b c = numbers a c := by
  obtain ⟨k, rfl⟩ := Nat.exists_eq_add_of_le h
  obtain ⟨l, rfl⟩ := Nat.exists_eq_add_of_le h'
  have hsub : a + k + l - a = k + l := by omega
  rw [numbers, numbers, numbers, Nat.add_sub_cancel_left, Nat.add_sub_cancel_left, hsub, Multiset.coe_add,
    List.range'_append_1]

theorem lt_of_mem_numbers {a b i : Nat} (h : a ≤ b) (hi : i ∈ numbers a b) : i < b := by
  have hrange := (List.mem_range'_1.1 (Multiset.mem_coe.1 hi)).2
  omega

/-! ## Computations that build expressions -/

namespace Lowering

/-- Given expressions with the numbers `old`, all issued before, the result has the property. Its numbers are `old`
and those that were issued meanwhile. -/
def Builds {α : Type} (P : α → Prop) (ids : α → Multiset Nat) (old : Multiset Nat) (m : Lowering α) : Prop :=
  ∀ s, (∀ i ∈ old, i < s.next) →
    P (m.run s).1 ∧ s.next ≤ (m.run s).2.next ∧ ids (m.run s).1 = old + numbers s.next (m.run s).2.next

section Builds
variable {α β : Type} {P : α → Prop} {Q : β → Prop} {ids : α → Multiset Nat} {ids' : β → Multiset Nat} {m : Lowering α}
  {f : α → Lowering β} {old part rest : Multiset Nat}

theorem builds_pure {a : α} (h : P a) (hids : ids a = old) : Builds P ids old (pure a) := by
  intro s _
  refine ⟨h, le_rfl, ?_⟩
  show ids a = old + numbers s.next s.next
  rw [numbers_self, add_zero, hids]

/-- A computation that is given a part of what there is. -/
theorem Builds.bindPart (h : Builds P ids part m) (hold : part + rest = old)
    (hf : ∀ a, P a → Builds Q ids' (ids a + rest) (f a)) : Builds Q ids' old (m >>= f) := by
  intro s hs
  subst hold
  obtain ⟨ha, hle, hids⟩ := h s fun i hi => hs i (Multiset.mem_add.2 (.inl hi))
  have hs' : ∀ i ∈ ids (m.run s).1 + rest, i < (m.run s).2.next := by
    intro i hi
    rw [hids, Multiset.mem_add, Multiset.mem_add] at hi
    rcases hi with (hi | hi) | hi
    · exact (hs i (Multiset.mem_add.2 (.inl hi))).trans_le hle
    · exact lt_of_mem_numbers hle hi
    · exact (hs i (Multiset.mem_add.2 (.inr hi))).trans_le hle
  obtain ⟨hb, hle', hids'⟩ := hf _ ha (m.run s).2 hs'
  refine ⟨hb, hle.trans hle', hids'.trans ?_⟩
  calc ids (m.run s).1 + rest + numbers (m.run s).2.next _
      = part + rest + (numbers s.next (m.run s).2.next + numbers (m.run s).2.next _) := by
        rw [hids, add_right_comm part, add_assoc]
    _ = part + rest + numbers s.next _ := by
        rw [numbers_add hle hle']
        rfl

theorem Builds.bind (h : Builds P ids 0 m) (hf : ∀ a, P a → Builds Q ids' (ids a + old) (f a)) :
    Builds Q ids' old (m >>= f) := h.bindPart (zero_add old) hf

theorem Builds.imp {P' : α → Prop} (h : Builds P ids old m) (hP : ∀ a, P a → P' a) : Builds P' ids old m := fun s hs =>
  ⟨hP _ (h s hs).1, (h s hs).2⟩

/-- The result is one of the computation, in the state in which it was run. -/
theorem Builds.result (h : Builds P ids old m) : Builds (fun a => P a ∧ ∃ s, (m.run s).1 = a) ids old m := fun s hs =>
  ⟨⟨(h s hs).1, s, rfl⟩, (h s hs).2⟩

theorem Builds.map {g : α → β} (h : Builds P ids old m) (hg : ∀ a, P a → Q (g a)) (hids : ∀ a, ids' (g a) = ids a) :
    Builds Q ids' old (g <$> m) := fun s hs =>
  ⟨hg _ (h s hs).1, (h s hs).2.1, (hids _).trans (h s hs).2.2⟩

theorem builds_warn {f : Unit → Lowering β} (o : Oddity) (h : Builds Q ids' old (f ())) :
    Builds Q ids' old (warn o >>= f) := fun s hs => h { s with oddities := s.oddities.push o } hs

end Builds

section Tidy
variable {text : String} {root : Tree} {old : Multiset Nat}

/-- The expressions of the result are tidy. -/
def Makes (text : String) (root : Tree) {α : Type} (held : α → List Expr) (old : Multiset Nat) (m : Lowering α) :
    Prop :=
  Builds (fun a => ∀ e ∈ held a, e.Tidy text root) (fun a => tally (held a)) old m

theorem builds_build {form : Form Expr} (span : Option Span)
    (hgroup : ∀ g, form.bindings? = some g → ∃ cs, root.Forms cs ∧ g.Merges text cs)
    (hparts : ∀ p ∈ form.parts, p.Tidy text root) (hold : tally form.parts = old) :
    Builds (fun e => e.Tidy text root ∧ e.form = form) Expr.ids old (build span form) := by
  intro s hs
  refine ⟨⟨Expr.tidy_of_parts ⟨fun p hp => hs _ (hold ▸ id_mem_tally hp), hgroup⟩ hparts, rfl⟩, Nat.le_succ _, ?_⟩
  show Expr.ids (.mk s.next span form) = old + numbers s.next (s.next + 1)
  rw [Expr.ids_eq, numbers_succ, add_comm]
  exact congrArg (· + {s.next}) hold

/-- Forms without a group. -/
theorem builds_form {form : Form Expr} (span : Option Span) (hgroup : form.bindings? = none)
    (hparts : ∀ p ∈ form.parts, p.Tidy text root) (hold : tally form.parts = old) :
    Builds (Expr.Tidy text root) Expr.ids old (build span form) :=
  (builds_build span (by simp [hgroup]) hparts hold).imp fun _ h => h.1

/-- Forms without parts. -/
theorem builds_leaf {form : Form Expr} (span : Option Span) (hgroup : form.bindings? = none)
    (hparts : form.parts = []) : Builds (Expr.Tidy text root) Expr.ids 0 (build span form) :=
  builds_form span hgroup (by simp [hparts]) (by simp [hparts])

theorem builds_missing (text : String) (root : Tree) : Builds (Expr.Tidy text root) Expr.ids 0 missing :=
  builds_leaf none rfl rfl

end Tidy

end Lowering

end NixTyping
