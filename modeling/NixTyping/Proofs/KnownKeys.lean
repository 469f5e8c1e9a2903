import Mathlib
import NixTyping.Proofs.Lowered
/-!
# Keys of bindings and of selections

A step of an attribute path is read in two ways. A group of bindings asks for its name
before anything is built (`Tree.keyOf`); a selection builds an expression of every step
and looks at what came out (`Tree.lowerAttr`, `Judging.stepName?`). Both find the same
name, or none: what is built is a string literal only where one was written, in quotes
or without them, or under parentheses in a computed name.
-/

namespace NixTyping

open Lowering Judging

/-- The name of a key, if it is known. -/
def Key.known? : Key → Option String
  | .fixed name _ => some name
  | .computed _ _ => none

/-- The steps that an entry gives to its group: the first of a path, or the names that are taken over. -/
def Entry.keys : Entry Tree → List (Attr Tree)
  | .bind path _ => path.take 1
  | .inherit _ names => names

theorem flatMap_binds_keys (es : List (Entry Tree)) :
    es.flatMap Entry.binds = (es.flatMap Entry.keys).filterMap Attr.known? := by
  rw [List.filterMap_flatMap]
  exact List.flatMap_congr fun c _ => by cases c <;> rfl

theorem flatMap_computed_keys (es : List (Entry Tree)) :
    es.flatMap Entry.computed = (es.flatMap Entry.keys).filter (·.known?.isNone) := by
  rw [List.filter_flatMap]
  exact List.flatMap_congr fun c _ => by cases c <;> rfl

namespace Tree
variable (source : String)

theorem known?_keyOf (a : Attr Tree) : (keyOf source a).known? = a.known? := by
  rw [keyOf_eq]
  cases a.known? <;> rfl

/-! ## What a step is built as -/

/-- Where there is a string literal, under any parentheses, it is all that is built. -/
theorem lower_of_stringLiteral {t : Tree} {k : String} (h : t.stringLiteral? = some k) :
    ∃ span, lower source t = build span (.literal (.string k)) := by
  fun_induction stringLiteral? t with
  | case1 span ps => exact ⟨span, by rw [lower, buildString, h]⟩
  | case2 span inner ih =>
    obtain ⟨span, hbuild⟩ := ih h
    exact ⟨span, by rw [lower, hbuild]⟩
  | case3 t _ _ => cases h

theorem lowerAttr_of_known {a : Attr Tree} {k : String} (h : a.known? = some k) :
    ∃ span, lowerAttr source a = build span (.literal (.string k)) := by
  cases a with
  | ident span name =>
    cases h
    exact ⟨span, by rw [lowerAttr]⟩
  | string span ps =>
    have hliteral : StringText.literal? ps = some k := h
    exact ⟨span, by rw [lowerAttr, buildString, hliteral]⟩
  | dynamic span t =>
    obtain ⟨t, rfl, ht⟩ := Option.bind_eq_some_iff.1 h
    rw [lowerAttr, lowerOrMissing]
    exact lower_of_stringLiteral source ht

theorem literal_of_form_buildString {span : Span} {ps : List (Piece Tree)} {pieces : Lowering (List (Piece Expr))}
    {s : Lowering.State} {k : String} (h : ((buildString span ps pieces).run s).1.form = .literal (.string k)) :
    StringText.literal? ps = some k := by
  unfold buildString at h
  split at h
  · next text htext =>
    cases h
    exact htext
  · cases h

/-- No other tree is built as a string literal. -/
theorem stringLiteral?_of_form {t : Tree} {s : Lowering.State} {k : String}
    (h : ((lower source t).run s).1.form = .literal (.string k)) : t.stringLiteral? = some k := by
  fun_induction stringLiteral? t with
  | case1 span ps =>
    rw [lower] at h
    exact literal_of_form_buildString h
  | case2 span inner ih =>
    rw [lower] at h
    exact ih h
  | case3 t hstring hparen =>
    -- integers and paths are the two with more than one form, none of them a string
    cases t with
    | string span ps => exact absurd rfl (hstring span ps)
    | paren span inner => exact absurd rfl (hparen span inner)
    | integer span digits =>
      rw [lower] at h
      unfold integerForm at h
      dsimp only at h
      split at h <;> cases h
    | path span ps =>
      rw [lower] at h
      split at h <;> cases h
    | _ =>
      rw [lower] at h
      cases h

theorem known?_of_form {a : Attr Tree} {s : Lowering.State} {k : String}
    (h : ((lowerAttr source a).run s).1.form = .literal (.string k)) : a.known? = some k := by
  cases a with
  | ident span name =>
    rw [lowerAttr] at h
    cases h
    rfl
  | string span ps =>
    rw [lowerAttr] at h
    exact literal_of_form_buildString h
  | dynamic span t =>
    rw [lowerAttr] at h
    cases t with
    | none =>
      rw [lowerOrMissing] at h
      cases h
    | some t =>
      rw [lowerOrMissing] at h
      exact stringLiteral?_of_form source h

theorem stepName?_eq_some {e : Expr} {k : String} : stepName? e = some k ↔ e.form = .literal (.string k) := by
  unfold stepName?
  split
  · next name hform => simp [hform]
  · next hform => simpa using hform k

/-- A selection finds the name that a step stands for. -/
theorem stepName?_lowerAttr (a : Attr Tree) (s : Lowering.State) :
    stepName? ((lowerAttr source a).run s).1 = a.known? := by
  refine Option.ext fun k => stepName?_eq_some.trans ⟨known?_of_form source, fun h => ?_⟩
  obtain ⟨span, hbuild⟩ := lowerAttr_of_known source h
  rw [hbuild]
  rfl

/-! ## Groups -/

/-- The group that entries make. -/
theorem merges_group (es : List (Entry Tree)) (span : Option Span) (isRec : Bool) (s : Lowering.State) :
    (((addEntries source es (.empty span isRec) >>= Draft.bindings).run s).1).Merges source es := by
  -- the entries are those of a set with nothing around it
  have forms : (Tree.set ⟨0, 0⟩ isRec es).Forms es := .literal .self
  have hadd : (Draft.empty span isRec).Extends source (.set ⟨0, 0⟩ isRec es) isRec ([] ++ es)
      (addEntries source es (.empty span isRec)) :=
    extends_addEntries source es (fun c hc => ⟨es, forms, hc⟩) (Draft.tidy_empty span isRec)
  have hgroup : Builds (·.Merges source es) (fun g => tally g.parts) 0
      (do let d ← addEntries source es (.empty span isRec); let g ← d.bindings; pure g) :=
    builds_group source hadd forms fun g hg => builds_pure hg.merges rfl
  simpa using (hgroup s (by rintro i ⟨⟩)).1

/-- A step of a path is a known name for a group of bindings exactly if it is one for a selection, and the name is the
same: then the literal of the name is all that is built of the step. So the names that a group of entries binds are
those that selections by its keys would ask for, each once, and its other keys are computed. -/
theorem keys_classified_alike (source : String) (s : Lowering.State) :
    (∀ a, (keyOf source a).known? = stepName? ((lowerAttr source a).run s).1) ∧
    (∀ a k, (keyOf source a).known? = some k ↔ ∃ span, lowerAttr source a = build span (.literal (.string k))) ∧
    ∀ es span isRec s', let g := ((addEntries source es (.empty span isRec) >>= Draft.bindings).run s').1
      g.names = distinct ((es.flatMap Entry.keys).filterMap fun a => stepName? ((lowerAttr source a).run s).1) ∧
      List.Forall₂ (fun a d => a.Becomes source d.1)
        ((es.flatMap Entry.keys).filter fun a => (stepName? ((lowerAttr source a).run s).1).isNone) g.dynamics := by
  refine ⟨fun a => ?_, fun a k => ⟨fun h => ?_, ?_⟩, fun es span isRec s' => ?_⟩
  · rw [known?_keyOf, stepName?_lowerAttr]
  · exact lowerAttr_of_known source (known?_keyOf source a ▸ h)
  · rintro ⟨span, hbuild⟩
    rw [known?_keyOf]
    exact known?_of_form source (s := s) (by rw [hbuild]; rfl)
  · simp only [stepName?_lowerAttr]
    obtain ⟨hnames, -, -, hcomputed⟩ := merges_group source es span isRec s'
    rw [flatMap_binds_keys] at hnames
    rw [flatMap_computed_keys] at hcomputed
    exact ⟨hnames, hcomputed⟩

end Tree

end NixTyping
