import Mathlib
import NixTyping.Proofs.KeptPaths
import NixTyping.Proofs.ModuleTree
import NixTyping.Proofs.SpreadSets
/-!
# Bindings of paths are merged

A set or `let` whose entries bind known paths keeps, of bindings with comparable paths, the
first. Read as nested sets, its group leads along the kept paths to their values and nowhere
else, and nothing is built for a binding that is not kept. And it does not matter whether a
set is written as a literal or spread over paths.
-/

namespace NixTyping

open Lowering

/-! ## Groups of kept bindings -/

/-- The group is that of the bindings, read as nested sets. -/
structure Bindings.Keeps (text : String) (K : List (List String × Tree)) (g : Bindings Expr) : Prop where
  /-- Each path leads to the value of its binding. -/
  maps : ∀ b ∈ K, ∃ e, g.At b.1 e ∧ b.2.Becomes text e ∧ ∀ e', g.At b.1 e' → e' = e
  /-- What leads anywhere goes along one of the paths, or on from its end. -/
  only : ∀ p e, g.At p e → ∃ b ∈ K, Comparable b.1 p
  /-- The names at a level are those with which the paths go on there, in the order in which they first do. -/
  levels : ∀ q g', g.Level q g' → q = [] ∨ restsAt q K ≠ [] →
    g'.names = distinct (heads (restsAt q K)) ∧ g'.names.Nodup ∧ g'.sources = [] ∧ g'.dynamics = []
  /-- What was built is a set on the way along a path, or stands under the value at its end. -/
  built : ∀ e ∈ g.parts.flatMap Expr.all, (∃ p, g.At p e ∧ ∃ b ∈ K, p <+: b.1 ∧ p ≠ b.1) ∨
    ∃ b ∈ K, ∃ e', g.At b.1 e' ∧ b.2.Becomes text e' ∧ e ∈ e'.all

theorem Bindings.Reads.keeps {text : String} {K : List (List String × Tree)} {g : Bindings Expr} (h : g.Reads text K)
    (hK : ∀ b ∈ K, b.1 ≠ []) : g.Keeps text K where
  maps b hb := by
    obtain ⟨e, hat, hbecomes⟩ := h.maps b hb (hK b hb)
    exact ⟨e, hat, hbecomes, fun e' hat' => h.at_unique hb hat' hat⟩
  only _ _ hat := h.exact hat
  levels q g' hlevel hq := by
    cases h.level hlevel hq with
    | mk names sources dynamics => exact ⟨names, names ▸ nodup_distinct _, sources, dynamics⟩
  built _ he := h.built he

namespace Tree

/-- The tree is a set or a `let` with these entries, and the trees are what stands after them. -/
inductive Groups (es : List (Entry Tree)) : Tree → List Tree → Prop where
  | set {span : Span} {isRec : Bool} : Groups es (.set span isRec es) []
  | letIn {span : Span} {body : Tree} : Groups es (.letIn span es body) [body]

/-- What is built for a set or a `let`: the group that its entries make, and what stands after them. -/
theorem Groups.builds (text : String) {es : List (Entry Tree)} {t : Tree} {after : List Tree} (h : Groups es t after) :
    Builds (fun e => ∃ g rest, e.form.bindings? = some g ∧ g.Merges text es ∧ e.parts = g.parts ++ rest ∧
      List.Forall₂ (Becomes text) after rest) Expr.ids 0 (lower text t) := by
  have hbindings : ∀ {e : Expr} {form : Form Expr}, e.form = form → e.form.bindings? = form.bindings? := congrArg _
  have hparts : ∀ {e : Expr} {form : Form Expr}, e.form = form → e.parts = form.parts := congrArg _
  cases h with
  | @set span isRec =>
    have forms : (Tree.set span isRec es).Forms es := .literal .self
    have hentries := extends_addEntries text es (fun c hc => ⟨es, forms, hc⟩) (Draft.tidy_empty (some span) isRec)
    rw [lower]
    refine (builds_set text hentries forms).imp ?_
    rintro e ⟨-, g, hform, hmerges⟩
    exact ⟨g, [], hbindings hform, hmerges, (hparts hform).trans (List.append_nil _).symm, .nil⟩
  | @letIn span body =>
    have forms : (Tree.letIn span es body).Forms es := .literal .self
    have hbody : (Tree.letIn span es body).Under body := .part .self (List.mem_append_right _ List.mem_cons_self)
    have hentries := extends_addEntries text es (fun c hc => ⟨es, forms, hc⟩) (Draft.tidy_empty (some span) false)
    rw [lower]
    refine (builds_letIn text hentries forms (builds_lower text body hbody)).imp ?_
    rintro e ⟨-, g, b, hform, hmerges, hb⟩
    exact ⟨g, [b], hbindings hform, hmerges, hparts hform, .cons hb .nil⟩

/-- Trees that come from each other by other spans and by sets spread out or put together. -/
abbrev SameSets : Tree → Tree → Prop := Relation.EqvGen Spreads

theorem SameSets.matches {t t' : Tree} (h : SameSets t t') (text text' : String) :
    Matches Expr.nodes (lower text t) (lower text' t') := by
  induction h generalizing text text' with
  | rel t t' h => exact matches_lower text text' h
  | refl t => exact matches_lower text text' (.refl t)
  | symm t t' _ ih => exact (ih text' text).symm
  | trans t u t' _ _ ih ih' => exact (ih text text').trans (ih' text' text')

end Tree

theorem Module.arena_ofTree {t t' : Tree} (h : t.SameSets t') (source source' : String) :
    (Module.ofTree source t).1.arena = (Module.ofTree source' t').1.arena ∧
      (Module.ofTree source t).1.count = (Module.ofTree source' t').1.count := by
  obtain ⟨hnodes, hnext⟩ := h.matches source source' {} {} rfl
  exact ⟨arena_congr hnodes, hnext⟩

theorem Module.arena_eq_of_sameSets {text text' : String} {t t' : Tree} {m m' : Module} {odd odd' : List Oddity}
    (ht : Tree.ofText? text = some t) (ht' : Tree.ofText? text' = some t') (h : t.SameSets t')
    (hm : Module.ofText? text = some (m, odd)) (hm' : Module.ofText? text' = some (m', odd')) :
    m.arena = m'.arena ∧ m.count = m'.count := by
  have hsame := Module.arena_ofTree h text text'
  rw [Module.ofText?, ht] at hm
  rw [Module.ofText?, ht'] at hm'
  rwa [Option.some.inj hm, Option.some.inj hm'] at hsame

/-- A set or `let` that binds known paths to values that are no set literals keeps of comparable paths the first, and
builds nothing for the others. To spread out a literal that binds paths, anywhere in the entries of any group, is a step
after which the same expressions are built. -/
theorem paths_merge_first_come :
    (∀ (text : String) {es : List (Entry Tree)} {L : List (List String × Tree)} {t : Tree} {after : List Tree},
      Tree.Groups es t after → List.Forall₂ Entry.Binds es L → ∀ s, ∃ g rest,
        ((t.lower text).run s).1.form.bindings? = some g ∧ g.Keeps text (kept L) ∧
        ((t.lower text).run s).1.parts = g.parts ++ rest ∧ List.Forall₂ (Tree.Becomes text) after rest ∧
        ((t.lower text).run s).1.ids = numbers s.next ((t.lower text).run s).2.next) ∧
    (∀ {before after qs : List (Entry Tree)} {path : List (Attr Tree)} {span : Span}, path ≠ [] →
      (∀ a ∈ path, a.known?.isSome = true) → qs ≠ [] → (∀ c ∈ qs, c.isPath = true) →
        Tree.SpreadsEntries (before ++ .bind path (.set span false qs) :: after)
          (before ++ (qs.map (Entry.prefixed path) ++ after))) ∧
    ∀ {text text' : String} {t t' : Tree} {m m' : Module} {odd odd' : List Oddity}, Tree.ofText? text = some t →
      Tree.ofText? text' = some t' → t.SameSets t' → Module.ofText? text = some (m, odd) →
        Module.ofText? text' = some (m', odd') → m.arena = m'.arena ∧ m.count = m'.count := by
  refine ⟨?_, ?_, Module.arena_eq_of_sameSets⟩
  · intro text es L t after hgroups hbinds s
    obtain ⟨⟨g, rest, hgroup, hmerges, hparts, hrest⟩, -, hids⟩ := hgroups.builds text s (by rintro i ⟨⟩)
    -- sets are nested no deeper than the paths are long
    have hlength : ∀ b ∈ L, b.1.length ≤ (L.map (·.1.length)).sum := fun b hb =>
      List.le_sum_of_mem (List.mem_map_of_mem hb)
    have hne : ∀ b ∈ kept L, b.1 ≠ [] := fun b hb => nonempty_of_binds hbinds b (mem_of_mem_kept hb)
    exact ⟨g, rest, hgroup, (hmerges.reads hlength hbinds).keeps hne, hparts, hrest, hids.trans (zero_add _)⟩
  · intro before after qs path span hpath hknown hqs hpaths
    exact .append before (.spread (.refl path) hpath hknown (.refl qs) hqs hpaths (.refl after))

/-- `{a={b=1;c=2;};a=3;}` -/
def nestedLiteral : Tree :=
  .set ⟨0, 19⟩ false [.bind [.ident ⟨1, 2⟩ "a"] (.set ⟨3, 13⟩ false
    [.bind [.ident ⟨4, 5⟩ "b"] (.integer ⟨6, 7⟩ "1"), .bind [.ident ⟨8, 9⟩ "c"] (.integer ⟨10, 11⟩ "2")]),
    .bind [.ident ⟨14, 15⟩ "a"] (.integer ⟨16, 17⟩ "3")]

/-- `{a.b=1;a.c=2;a=3;}` -/
def spreadLiteral : Tree :=
  .set ⟨0, 18⟩ false [.bind [.ident ⟨1, 2⟩ "a", .ident ⟨3, 4⟩ "b"] (.integer ⟨5, 6⟩ "1"),
    .bind [.ident ⟨7, 8⟩ "a", .ident ⟨9, 10⟩ "c"] (.integer ⟨11, 12⟩ "2"),
    .bind [.ident ⟨13, 14⟩ "a"] (.integer ⟨15, 16⟩ "3")]

theorem ofText?_nestedLiteral : Tree.ofText? "\x7ba=\x7bb=1;c=2;\x7d;a=3;\x7d" = some nestedLiteral := by cbv

theorem ofText?_spreadLiteral : Tree.ofText? "\x7ba.b=1;a.c=2;a=3;\x7d" = some spreadLiteral := by cbv

/-- A literal and the paths that it is spread over; the last binding is not kept. -/
theorem paths_merge_first_come_spread_literal :
    ∃ m m' odd odd', Module.ofText? "\x7ba=\x7bb=1;c=2;\x7d;a=3;\x7d" = some (m, odd) ∧
      Module.ofText? "\x7ba.b=1;a.c=2;a=3;\x7d" = some (m', odd') ∧ m.arena = m'.arena ∧
      ∃ g, m'.entry.form.bindings? = some g ∧ g.names = ["a"] ∧ g.Keeps "\x7ba.b=1;a.c=2;a=3;\x7d"
        [(["a", "b"], .integer ⟨5, 6⟩ "1"), (["a", "c"], .integer ⟨11, 12⟩ "2")] := by
  obtain ⟨hkeeps, hspread, hsame⟩ := paths_merge_first_come
  have hentries := @hspread [] [.bind [.ident ⟨14, 15⟩ "a"] (.integer ⟨16, 17⟩ "3")]
    [.bind [.ident ⟨4, 5⟩ "b"] (.integer ⟨6, 7⟩ "1"), .bind [.ident ⟨8, 9⟩ "c"] (.integer ⟨10, 11⟩ "2")]
    [.ident ⟨1, 2⟩ "a"] ⟨3, 13⟩ (by simp) (by simp [Attr.known?]) (by simp) (by simp [Entry.isPath])
  have hspans : Tree.Spreads (.set ⟨0, 19⟩ false
      [.bind [.ident ⟨1, 2⟩ "a", .ident ⟨4, 5⟩ "b"] (.integer ⟨6, 7⟩ "1"),
        .bind [.ident ⟨1, 2⟩ "a", .ident ⟨8, 9⟩ "c"] (.integer ⟨10, 11⟩ "2"),
        .bind [.ident ⟨14, 15⟩ "a"] (.integer ⟨16, 17⟩ "3")]) spreadLiteral :=
    .set (.bind (.cons .ident (.cons .ident .nil)) .integer (.bind (.cons .ident (.cons .ident .nil)) .integer
      (.bind (.cons .ident .nil) .integer .nil)))
  have hsets : nestedLiteral.SameSets spreadLiteral := .trans _ _ _ (.rel _ _ (.set hentries)) (.rel _ _ hspans)
  have hbinds : List.Forall₂ Entry.Binds spreadLiteral.entries
      [(["a", "b"], .integer ⟨5, 6⟩ "1"), (["a", "c"], .integer ⟨11, 12⟩ "2"), (["a"], .integer ⟨15, 16⟩ "3")] :=
    .cons ⟨_, rfl, rfl, by simp, rfl⟩ (.cons ⟨_, rfl, rfl, by simp, rfl⟩ (.cons ⟨_, rfl, rfl, by simp, rfl⟩ .nil))
  obtain ⟨g, -, hgroup, hkept, -⟩ := hkeeps "\x7ba.b=1;a.c=2;a=3;\x7d" .set hbinds {}
  have hmodule : ∀ {text : String} {t : Tree}, Tree.ofText? text = some t →
      Module.ofText? text = some ((Module.ofTree text t).1, (Module.ofTree text t).2) :=
    fun ht => by rw [Module.ofText?, ht]; rfl
  have hm := hmodule ofText?_nestedLiteral
  have hm' := hmodule ofText?_spreadLiteral
  have harena := (hsame ofText?_nestedLiteral ofText?_spreadLiteral hsets hm hm').1
  exact ⟨_, _, _, _, hm, hm', harena, g, hgroup, (hkept.levels [] g .here (.inl rfl)).1, hkept⟩

end NixTyping
