import NixTyping.Proofs.Arena
import NixTyping.Proofs.SyntaxParts
/-!
# Sets spread over paths

To bind a path to a set literal is to bind, for each entry of the literal, the path that goes
on with the entry's own. A tree in which some literals are spread out in this way, anywhere,
builds the same expressions under the same numbers (`matches_lower`).
-/

namespace NixTyping

open Lowering

/-! ## Going into a set -/

namespace Draft

section Within
variable {x : String} {m m' : Draft → Lowering Draft} {d d' : Draft}

/-- Add to the set that a name stands for, if it does not stand for a value. -/
def within (x : String) (m : Draft → Lowering Draft) (d : Draft) : Lowering Draft :=
  match d.find? x with
  | none => do return d.push x (.set (← m (.empty none false)))
  | some (.set sub) => do return d.replace x (.set (← m sub))
  | some (.value _) => return d

theorem find?_push (h : d.find? x = none) (e : DraftEntry) : (d.push x e).find? x = some e := by
  obtain ⟨span, isRec, statics, sources, dynamics⟩ := d
  simp only [find?, push] at h ⊢
  induction statics with
  | nil => simp [findKey]
  | cons s statics ih =>
    rw [findKey] at h
    split at h
    · cases h
    · next hs => rw [List.cons_append, findKey, if_neg hs, ih h]

theorem replace_push (h : d.find? x = none) (e e' : DraftEntry) : (d.push x e).replace x e' = d.push x e' := by
  obtain ⟨span, isRec, statics, sources, dynamics⟩ := d
  have hnew : ∀ s ∈ statics, s.1 ≠ x := by
    rintro s hs rfl
    have hsome : (findKey s.1 statics).isSome := findKey_isSome.2 (List.mem_map_of_mem hs)
    rw [find?] at h
    rw [h] at hsome
    cases hsome
  have hmap : (statics.map fun s => if s.1 = x then (x, e') else s) = statics := by
    conv_rhs => rw [← List.map_id statics]
    exact List.map_congr_left fun s hs => if_neg (hnew s hs)
  simp [push, replace, hmap]

theorem find?_replace {e : DraftEntry} (h : d.find? x = some e) (e' : DraftEntry) :
    (d.replace x e').find? x = some e' := by
  obtain ⟨span, isRec, statics, sources, dynamics⟩ := d
  simp only [find?, replace] at h ⊢
  induction statics with
  | nil => cases h
  | cons s statics ih =>
    by_cases hs : x = s.1
    · simp [findKey, hs]
    · rw [findKey, if_neg hs] at h
      rw [List.map_cons, if_neg (Ne.symm hs), findKey, if_neg hs, ih h]

theorem replace_replace (d : Draft) (x : String) (e e' : DraftEntry) :
    (d.replace x e).replace x e' = d.replace x e' := by
  obtain ⟨span, isRec, statics, sources, dynamics⟩ := d
  simp only [replace, List.map_map, mk.injEq, and_true, true_and]
  refine List.map_congr_left fun s _ => ?_
  by_cases hs : s.1 = x <;> simp [hs]

/-- What is added to one set, one after the other, is added at once. -/
theorem within_bind (x : String) (m m' : Draft → Lowering Draft) (d : Draft) :
    within x m d >>= within x m' = within x (fun sub => m sub >>= m') d := by
  cases hfind : d.find? x with
  | none =>
    simp only [within, hfind, bind_assoc, pure_bind]
    congr 1
    funext sub
    rw [find?_push hfind]
    simp only [replace_push hfind]
  | some e =>
    cases e with
    | set sub =>
      simp only [within, hfind, bind_assoc, pure_bind]
      congr 1
      funext sub
      rw [find?_replace hfind]
      simp only [replace_replace]
    | value b => simp only [within, hfind, pure_bind]

/-- A path that goes on from a name binds in the set there. -/
theorem matches_bindPath_within (h : d.view = d'.view) {v : BoundValue} {path : List Key} (hpath : path ≠ [])
    (hm : ∀ {sub sub' : Draft}, sub.view = sub'.view → Matches Draft.view (bindPath v path sub) (m sub'))
    (span : Span) : Matches Draft.view (bindPath v (.fixed x span :: path) d) (within x m d') := by
  rw [bindPath, within]
  · rcases find?_cases h x with ⟨hfind, hfind'⟩ | ⟨sub, sub', hfind, hfind', hsub⟩ | ⟨b, b', hfind, hfind'⟩
    · rw [hfind, hfind']
      exact matches_push h x (hm rfl)
    · rw [hfind, hfind']
      exact matches_replace h x (hm hsub)
    · rw [hfind, hfind']
      exact Agree.warn_left _ (agree_pure h)
  · exact hpath

/-- A name for a set literal that is not recursive adds to the set there. -/
theorem matches_bindName_within (h : d.view = d'.view) {v : BoundValue} {l : SetLiteral} (hv : v.literal? = some l)
    (hl : l.isRec = false) (hm : ∀ {sub sub' : Draft}, sub.view = sub'.view → Matches Draft.view (l.addTo sub) (m sub'))
    (span : Span) : Matches Draft.view (d.bindName x span v) (within x m d') := by
  rw [bindName, within, hv]
  rcases find?_cases h x with ⟨hfind, hfind'⟩ | ⟨sub, sub', hfind, hfind', hsub⟩ | ⟨b, b', hfind, hfind'⟩
  · have hempty : (Draft.empty (some l.span) l.isRec).view = (Draft.empty none false).view := by
      rw [hl]
      exact view_empty _ _ _
    rw [hfind, hfind']
    exact matches_push h x (hm hempty)
  · -- a literal that is not recursive adds its span to the set, which is not looked at
    have habsorb : (sub.absorb l).view = sub.view := by
      obtain ⟨span, isRec, statics, sources, dynamics⟩ := sub
      rw [absorb, view_mk, view_mk, hl, Bool.or_false]
    rw [hfind, hfind']
    exact matches_replace h x (hm (habsorb.trans hsub))
  · rw [hfind, hfind']
    exact Agree.warn_left _ (agree_pure h)

end Within

end Draft

/-! ## Entries under a path -/

namespace Entry

/-- The entry with a path before its own. -/
def prefixed (path : List (Attr Tree)) : Entry Tree → Entry Tree
  | .bind steps value => .bind (path ++ steps) value
  | .inherit source names => .inherit source names

/-- The entry binds a path. -/
def isPath : Entry Tree → Bool
  | .bind (_ :: _) _ => true
  | _ => false

/-- Adding the entry depends on the next number and on the look of the draft only. -/
def Steady (text : String) : Entry Tree → Prop
  | .bind steps value =>
    BoundValue.Alike ⟨value.lower text, value.setLiteral? text⟩ ⟨value.lower text, value.setLiteral? text⟩ ∧
      List.Forall₂ Key.Alike (Tree.keysOf text steps) (Tree.keysOf text steps)
  | .inherit .. => True

theorem prefixed_nil (c : Entry Tree) : c.prefixed [] = c := by
  cases c <;> rfl

theorem prefixed_cons (a : Attr Tree) (path : List (Attr Tree)) (c : Entry Tree) :
    c.prefixed (a :: path) = (c.prefixed path).prefixed [a] := by
  cases c <;> rfl

end Entry

namespace Tree

section Prefixed
variable {text : String} {qs : List (Entry Tree)} {d d' : Draft}

theorem addEntries_nil (text : String) : addEntries text [] = pure := by
  funext d
  rw [addEntries]

theorem addEntries_cons (text : String) (c : Entry Tree) (es : List (Entry Tree)) :
    addEntries text (c :: es) = fun d => addEntry text c d >>= addEntries text es := by
  funext d
  rw [addEntries]

theorem addEntries_append (text : String) (es es' : List (Entry Tree)) (d : Draft) :
    addEntries text (es ++ es') d = addEntries text es d >>= addEntries text es' := by
  induction es generalizing d with
  | nil => rw [List.nil_append, addEntries_nil, pure_bind]
  | cons c es ih =>
    rw [List.cons_append, addEntries, addEntries, bind_assoc]
    exact bind_congr ih

theorem keysOf_cons_known {a : Attr Tree} {x : String} (ha : a.known? = some x) (text : String)
    (steps : List (Attr Tree)) : keysOf text (a :: steps) = .fixed x a.span :: keysOf text steps := by
  rw [keysOf, keyOf_eq, ha]

/-- To add an entry under a name is to add it to the set there. -/
theorem matches_addEntry_prefixed {a : Attr Tree} {x : String} (ha : a.known? = some x) {c : Entry Tree}
    (hpath : c.isPath = true) (hsteady : c.Steady text) (h : d.view = d'.view) :
    Matches Draft.view (addEntry text (c.prefixed [a]) d) (Draft.within x (addEntry text c) d') := by
  cases c with
  | inherit source names => cases hpath
  | bind steps value =>
    cases steps with
    | nil => cases hpath
    | cons b steps =>
      have hadd : addEntry text (.bind (b :: steps) value) =
          Draft.bindPath ⟨lower text value, setLiteral? text value⟩ (keysOf text (b :: steps)) := by
        funext d
        rw [addEntry]
      rw [Entry.prefixed, List.singleton_append, addEntry, keysOf_cons_known ha, hadd]
      refine Draft.matches_bindPath_within h ?_ (fun hsub => Draft.matches_bindPath hsteady.1 hsteady.2 hsub) _
      rw [keysOf]
      exact List.cons_ne_nil _ _

theorem matches_addEntries_prefixed {a : Attr Tree} {x : String} (ha : a.known? = some x) (hne : qs ≠ [])
    (hpath : ∀ c ∈ qs, c.isPath = true) (hsteady : ∀ c ∈ qs, c.Steady text) (h : d.view = d'.view) :
    Matches Draft.view (addEntries text (qs.map (Entry.prefixed [a])) d) (Draft.within x (addEntries text qs) d') := by
  induction qs generalizing d d' with
  | nil => exact absurd rfl hne -- no entry would bind the name, but `within` binds it to an empty set
  | cons c qs ih =>
    have hhead := matches_addEntry_prefixed ha (hpath c List.mem_cons_self) (hsteady c List.mem_cons_self) h
    rw [List.map_cons, addEntries, addEntries_cons]
    cases qs with
    | nil => simpa only [List.map_nil, addEntries_nil, bind_pure] using hhead
    | cons c' qs =>
      rw [← Draft.within_bind]
      refine hhead.bind fun d₁ d₁' h₁ => ih (List.cons_ne_nil _ _) (fun c hc => ?_) (fun c hc => ?_) h₁
      · exact hpath c (List.mem_cons_of_mem _ hc)
      · exact hsteady c (List.mem_cons_of_mem _ hc)

theorem isPath_prefixed {c : Entry Tree} (h : c.isPath = true) (path : List (Attr Tree)) :
    (c.prefixed path).isPath = true := by
  cases c with
  | inherit source names => cases h
  | bind steps value =>
    cases path with
    | nil => exact h
    | cons a path => rfl

theorem steady_prefixed {c : Entry Tree} (h : c.Steady text) {path : List (Attr Tree)}
    (hpath : ∀ a ∈ path, a.known?.isSome = true) : (c.prefixed path).Steady text := by
  induction path with
  | nil =>
    cases c <;> exact h
  | cons a path ih =>
    have hrest := ih fun a ha => hpath a (List.mem_cons_of_mem _ ha)
    obtain ⟨x, hx⟩ := Option.isSome_iff_exists.1 (hpath a List.mem_cons_self)
    cases c with
    | inherit source names => trivial
    | bind steps value =>
      refine ⟨hrest.1, ?_⟩
      rw [List.cons_append, keysOf_cons_known hx]
      exact .cons .fixed hrest.2

/-- To bind a path to a set literal that is not recursive is to add its entries under the path. -/
theorem matches_bindPath_prefixed {v : BoundValue} {l : SetLiteral} (hv : v.literal? = some l) (hl : l.isRec = false)
    (hm : ∀ {sub sub' : Draft}, sub.view = sub'.view → Matches Draft.view (l.addTo sub) (addEntries text qs sub'))
    (hne : qs ≠ []) (hpath : ∀ c ∈ qs, c.isPath = true) (hsteady : ∀ c ∈ qs, c.Steady text) {keys : List Key}
    {path : List (Attr Tree)} (hkeys : List.Forall₂ Key.Alike keys (keysOf text path)) (hsome : path ≠ [])
    (hknown : ∀ a ∈ path, a.known?.isSome = true) (h : d.view = d'.view) :
    Matches Draft.view (Draft.bindPath v keys d) (addEntries text (qs.map (Entry.prefixed path)) d') := by
  induction path generalizing keys d d' with
  | nil => exact absurd rfl hsome
  | cons a path ih =>
    obtain ⟨x, hx⟩ := Option.isSome_iff_exists.1 (hknown a List.mem_cons_self)
    have hrest : ∀ a ∈ path, a.known?.isSome = true := fun a ha => hknown a (List.mem_cons_of_mem _ ha)
    have hmap : qs.map (Entry.prefixed (a :: path)) = (qs.map (Entry.prefixed path)).map (Entry.prefixed [a]) := by
      rw [List.map_map]
      exact List.map_congr_left fun c _ => c.prefixed_cons a path
    have hunder : Matches Draft.view (addEntries text ((qs.map (Entry.prefixed path)).map (Entry.prefixed [a])) d')
        (Draft.within x (addEntries text (qs.map (Entry.prefixed path))) d') := by
      refine matches_addEntries_prefixed hx (by simpa using hne) ?_ ?_ rfl
      · exact List.forall_mem_map.2 fun c hc => isPath_prefixed (hpath c hc) path
      · exact List.forall_mem_map.2 fun c hc => steady_prefixed (hsteady c hc) hrest
    -- both sides go into the set of the first name, where the path is shorter by one
    rw [hmap]
    refine Matches.trans ?_ hunder.symm
    rw [keysOf_cons_known hx] at hkeys
    cases hkeys with
    | @cons k _ keys _ hk hkeys =>
      cases hk with
      | @fixed _ span =>
        cases path with
        | nil =>
          rw [keysOf] at hkeys
          cases hkeys
          have hnil : Entry.prefixed [] = id := funext Entry.prefixed_nil
          rw [hnil, List.map_id]
          exact Draft.matches_bindName_within h hv hl hm span
        | cons b path =>
          refine Draft.matches_bindPath_within h ?_ (fun hsub => ?_) span
          · rw [keysOf] at hkeys
            cases hkeys
            exact List.cons_ne_nil _ _
          · exact ih hkeys (List.cons_ne_nil _ _) hrest hsub

end Prefixed

/-! ## Trees with sets spread out -/

mutual

/-- The second tree is the first with other spans, and with some of the sets that paths are bound to spread out. -/
inductive Spreads : Tree → Tree → Prop where
  | ident {span span' : Span} {name : String} : Spreads (.ident span name) (.ident span' name)
  | integer {span span' : Span} {digits : String} : Spreads (.integer span digits) (.integer span' digits)
  | float {span span' : Span} {text : String} : Spreads (.float span text) (.float span' text)
  | uri {span span' : Span} : Spreads (.uri span) (.uri span')
  | string {span span' : Span} {ps ps' : List (Piece Tree)} (pieces : SpreadsPieces ps ps') :
    Spreads (.string span ps) (.string span' ps')
  | path {span span' : Span} {ps ps' : List (Piece Tree)} (pieces : SpreadsPieces ps ps') :
    Spreads (.path span ps) (.path span' ps')
  | paren {span span' : Span} {t t' : Tree} (inner : Spreads t t') : Spreads (.paren span t) (.paren span' t')
  | list {span span' : Span} {ts ts' : List Tree} (items : SpreadsAll ts ts') :
    Spreads (.list span ts) (.list span' ts')
  | set {span span' : Span} {isRec : Bool} {es es' : List (Entry Tree)} (entries : SpreadsEntries es es') :
    Spreads (.set span isRec es) (.set span' isRec es')
  | letIn {span span' : Span} {es es' : List (Entry Tree)} {t t' : Tree} (entries : SpreadsEntries es es')
    (body : Spreads t t') : Spreads (.letIn span es t) (.letIn span' es' t')
  | letBraces {span span' : Span} : Spreads (.letBraces span) (.letBraces span')
  | lambda {span span' : Span} {p p' : Param Tree} {t t' : Tree} (param : SpreadsParam p p') (body : Spreads t t') :
    Spreads (.lambda span p t) (.lambda span' p' t')
  | apply {span span' : Span} {t t' u u' : Tree} (fn : Spreads t t') (arg : Spreads u u') :
    Spreads (.apply span t u) (.apply span' t' u')
  | select {span span' : Span} {t t' : Tree} {as as' : List (Attr Tree)} {u u' : Option Tree} (subject : Spreads t t')
    (steps : SpreadsAttrs as as') (dflt : SpreadsOption u u') : Spreads (.select span t as u) (.select span' t' as' u')
  | hasAttr {span span' : Span} {t t' : Tree} {as as' : List (Attr Tree)} (subject : Spreads t t')
    (steps : SpreadsAttrs as as') : Spreads (.hasAttr span t as) (.hasAttr span' t' as')
  | unary {span span' : Span} {op : UnaryOp} {t t' : Tree} (operand : Spreads t t') :
    Spreads (.unary span op t) (.unary span' op t')
  | binary {span span' : Span} {op : BinOp} {t t' u u' : Tree} (left : Spreads t t') (right : Spreads u u') :
    Spreads (.binary span op t u) (.binary span' op t' u')
  | ifElse {span span' : Span} {t t' u u' v v' : Tree} (cond : Spreads t t') (yes : Spreads u u') (no : Spreads v v') :
    Spreads (.ifElse span t u v) (.ifElse span' t' u' v')
  | withIn {span span' : Span} {t t' u u' : Tree} (scope : Spreads t t') (body : Spreads u u') :
    Spreads (.withIn span t u) (.withIn span' t' u')
  | assertIn {span span' : Span} {t t' u u' : Tree} (cond : Spreads t t') (body : Spreads u u') :
    Spreads (.assertIn span t u) (.assertIn span' t' u')

inductive SpreadsAll : List Tree → List Tree → Prop where
  | nil : SpreadsAll [] []
  | cons {t t' : Tree} {ts ts' : List Tree} (head : Spreads t t') (rest : SpreadsAll ts ts') :
    SpreadsAll (t :: ts) (t' :: ts')

inductive SpreadsOption : Option Tree → Option Tree → Prop where
  | none : SpreadsOption none none
  | some {t t' : Tree} (inner : Spreads t t') : SpreadsOption (some t) (some t')

inductive SpreadsPieces : List (Piece Tree) → List (Piece Tree) → Prop where
  | nil : SpreadsPieces [] []
  | text {s : String} {ps ps' : List (Piece Tree)} (rest : SpreadsPieces ps ps') :
    SpreadsPieces (.text s :: ps) (.text s :: ps')
  | interp {t t' : Tree} {ps ps' : List (Piece Tree)} (head : Spreads t t') (rest : SpreadsPieces ps ps') :
    SpreadsPieces (.interp t :: ps) (.interp t' :: ps')

inductive SpreadsAttr : Attr Tree → Attr Tree → Prop where
  | ident {span span' : Span} {name : String} : SpreadsAttr (.ident span name) (.ident span' name)
  | string {span span' : Span} {ps ps' : List (Piece Tree)} (pieces : SpreadsPieces ps ps') :
    SpreadsAttr (.string span ps) (.string span' ps')
  | dynamic {span span' : Span} {t t' : Option Tree} (inner : SpreadsOption t t') :
    SpreadsAttr (.dynamic span t) (.dynamic span' t')

inductive SpreadsAttrs : List (Attr Tree) → List (Attr Tree) → Prop where
  | nil : SpreadsAttrs [] []
  | cons {a a' : Attr Tree} {as as' : List (Attr Tree)} (head : SpreadsAttr a a') (rest : SpreadsAttrs as as') :
    SpreadsAttrs (a :: as) (a' :: as')

inductive SpreadsParam : Param Tree → Param Tree → Prop where
  | name {x : String} : SpreadsParam (.name x) (.name x)
  | fields {fs fs' : List (String × Option Tree)} {ellipsis : Bool} {whole : Option String}
    (defaults : SpreadsFields fs fs') : SpreadsParam (.fields fs ellipsis whole) (.fields fs' ellipsis whole)

inductive SpreadsFields : List (String × Option Tree) → List (String × Option Tree) → Prop where
  | nil : SpreadsFields [] []
  | cons {name : String} {t t' : Option Tree} {fs fs' : List (String × Option Tree)} (head : SpreadsOption t t')
    (rest : SpreadsFields fs fs') : SpreadsFields ((name, t) :: fs) ((name, t') :: fs')

inductive SpreadsEntries : List (Entry Tree) → List (Entry Tree) → Prop where
  | nil : SpreadsEntries [] []
  | bind {as as' : List (Attr Tree)} {t t' : Tree} {es es' : List (Entry Tree)} (steps : SpreadsAttrs as as')
    (value : Spreads t t') (rest : SpreadsEntries es es') : SpreadsEntries (.bind as t :: es) (.bind as' t' :: es')
  | inherit {t t' : Option Tree} {as as' : List (Attr Tree)} {es es' : List (Entry Tree)} (source : SpreadsOption t t')
    (names : SpreadsAttrs as as') (rest : SpreadsEntries es es') :
    SpreadsEntries (.inherit t as :: es) (.inherit t' as' :: es')
  /-- A set literal that is not recursive, has entries and binds only paths. -/
  | spread {span : Span} {as as' : List (Attr Tree)} {qs qs' es es' : List (Entry Tree)} (steps : SpreadsAttrs as as')
    (nonempty : as' ≠ []) (known : ∀ a ∈ as', a.known?.isSome = true) (inner : SpreadsEntries qs qs')
    (filled : qs' ≠ []) (paths : ∀ c ∈ qs', c.isPath = true) (rest : SpreadsEntries es es') :
    SpreadsEntries (.bind as (.set span false qs) :: es) (qs'.map (Entry.prefixed as') ++ es')

end

theorem SpreadsPieces.literal?_eq : ∀ {ps ps' : List (Piece Tree)}, SpreadsPieces ps ps' →
    StringText.literal? ps = StringText.literal? ps'
  | _, _, .nil => rfl
  | _, _, .text rest => by rw [StringText.literal?, StringText.literal?, rest.literal?_eq]
  | _, _, .interp _ _ => rfl

theorem Spreads.stringLiteral?_eq : ∀ {t t' : Tree}, Spreads t t' → stringLiteral? t = stringLiteral? t'
  | _, _, .string pieces => pieces.literal?_eq
  | _, _, .paren inner => inner.stringLiteral?_eq
  | _, _, .ident | _, _, .integer | _, _, .float | _, _, .uri | _, _, .path _ | _, _, .list _ | _, _, .set _
  | _, _, .letIn _ _ | _, _, .letBraces | _, _, .lambda _ _ | _, _, .apply _ _ | _, _, .select _ _ _
  | _, _, .hasAttr _ _
  | _, _, .unary _ | _, _, .binary _ _ | _, _, .ifElse _ _ _ | _, _, .withIn _ _ | _, _, .assertIn _ _ => rfl

theorem SpreadsAttr.known?_eq {a a' : Attr Tree} (h : SpreadsAttr a a') : a.known? = a'.known? := by
  cases h with
  | ident => rfl
  | string pieces => exact pieces.literal?_eq
  | dynamic inner =>
    cases inner with
    | none => rfl
    | some inner => exact inner.stringLiteral?_eq

mutual

theorem Spreads.refl : ∀ t : Tree, Spreads t t
  | .ident .. => .ident
  | .integer .. => .integer
  | .float .. => .float
  | .uri _ => .uri
  | .string _ ps => .string (SpreadsPieces.refl ps)
  | .path _ ps => .path (SpreadsPieces.refl ps)
  | .paren _ t => .paren (Spreads.refl t)
  | .list _ ts => .list (SpreadsAll.refl ts)
  | .set _ _ es => .set (SpreadsEntries.refl es)
  | .letIn _ es t => .letIn (SpreadsEntries.refl es) (Spreads.refl t)
  | .letBraces _ => .letBraces
  | .lambda _ p t => .lambda (SpreadsParam.refl p) (Spreads.refl t)
  | .apply _ t u => .apply (Spreads.refl t) (Spreads.refl u)
  | .select _ t as u => .select (Spreads.refl t) (SpreadsAttrs.refl as) (SpreadsOption.refl u)
  | .hasAttr _ t as => .hasAttr (Spreads.refl t) (SpreadsAttrs.refl as)
  | .unary _ _ t => .unary (Spreads.refl t)
  | .binary _ _ t u => .binary (Spreads.refl t) (Spreads.refl u)
  | .ifElse _ t u v => .ifElse (Spreads.refl t) (Spreads.refl u) (Spreads.refl v)
  | .withIn _ t u => .withIn (Spreads.refl t) (Spreads.refl u)
  | .assertIn _ t u => .assertIn (Spreads.refl t) (Spreads.refl u)

theorem SpreadsAll.refl : ∀ ts : List Tree, SpreadsAll ts ts
  | [] => .nil
  | t :: ts => .cons (Spreads.refl t) (SpreadsAll.refl ts)

theorem SpreadsOption.refl : ∀ t : Option Tree, SpreadsOption t t
  | none => .none
  | some t => .some (Spreads.refl t)

theorem SpreadsPieces.refl : ∀ ps : List (Piece Tree), SpreadsPieces ps ps
  | [] => .nil
  | .text _ :: ps => .text (SpreadsPieces.refl ps)
  | .interp t :: ps => .interp (Spreads.refl t) (SpreadsPieces.refl ps)

theorem SpreadsAttr.refl : ∀ a : Attr Tree, SpreadsAttr a a
  | .ident .. => .ident
  | .string _ ps => .string (SpreadsPieces.refl ps)
  | .dynamic _ t => .dynamic (SpreadsOption.refl t)

theorem SpreadsAttrs.refl : ∀ as : List (Attr Tree), SpreadsAttrs as as
  | [] => .nil
  | a :: as => .cons (SpreadsAttr.refl a) (SpreadsAttrs.refl as)

theorem SpreadsParam.refl : ∀ p : Param Tree, SpreadsParam p p
  | .name _ => .name
  | .fields fs _ _ => .fields (SpreadsFields.refl fs)

theorem SpreadsFields.refl : ∀ fs : List (String × Option Tree), SpreadsFields fs fs
  | [] => .nil
  | (_, t) :: fs => .cons (SpreadsOption.refl t) (SpreadsFields.refl fs)

theorem SpreadsEntries.refl : ∀ es : List (Entry Tree), SpreadsEntries es es
  | [] => .nil
  | .bind as t :: es => .bind (SpreadsAttrs.refl as) (Spreads.refl t) (SpreadsEntries.refl es)
  | .inherit t as :: es => .inherit (SpreadsOption.refl t) (SpreadsAttrs.refl as) (SpreadsEntries.refl es)

end

theorem SpreadsEntries.append (es : List (Entry Tree)) {es₁ es₂ : List (Entry Tree)} (h : SpreadsEntries es₁ es₂) :
    SpreadsEntries (es ++ es₁) (es ++ es₂) := by
  induction es with
  | nil => exact h
  | cons c es ih =>
    cases c with
    | bind as t => exact .bind (.refl as) (.refl t) ih
    | inherit t as => exact .inherit (.refl t) (.refl as) ih

/-! ## The same expressions -/

section Matches
variable (text text' : String)

theorem matches_integerForm (digits : String) :
    Matches (Form.map Expr.nodes) (integerForm digits) (integerForm digits) := by
  unfold integerForm
  simp only
  split
  · exact agree_pure rfl
  · exact Agree.warn _ _ (agree_pure rfl)

theorem matches_buildString (span span' : Span) {ps ps' : List (Piece Tree)} (hps : SpreadsPieces ps ps')
    {pieces pieces' : Lowering (List (Piece Expr))} (h : Matches (List.map (Piece.map Expr.nodes)) pieces pieces') :
    Matches Expr.nodes (buildString span ps pieces) (buildString span' ps' pieces') := by
  unfold buildString
  rw [hps.literal?_eq]
  split
  · exact matches_build rfl _ _
  · refine h.bind fun ps ps' hps => matches_build ?_ _ _
    rw [Form.map, Form.map, hps]

include text text'

mutual

theorem matches_lower : ∀ {t t' : Tree}, Spreads t t' → Matches Expr.nodes (lower text t) (lower text' t')
  | _, _, .ident => by
    rw [lower, lower]
    exact matches_build rfl _ _
  | _, _, .integer => by
    rw [lower, lower]
    exact (matches_integerForm _).bind fun f f' hf => matches_build hf _ _
  | _, _, .float => by
    rw [lower, lower]
    exact matches_build rfl _ _
  | _, _, .uri => by
    rw [lower, lower]
    exact matches_build rfl _ _
  | _, _, .string pieces => by
    rw [lower, lower]
    exact matches_buildString _ _ pieces (matches_lowerPieces pieces)
  | _, _, .path pieces => by
    rw [lower, lower, pieces.literal?_eq]
    split
    · exact matches_build rfl _ _
    · refine (matches_lowerPieces pieces).bind fun ps ps' hps => matches_build ?_ _ _
      rw [Form.map, Form.map, hps]
  | _, _, .paren inner => by
    rw [lower, lower]
    exact matches_lower inner
  | _, _, .list items => by
    rw [lower, lower]
    refine (matches_lowerAll items).bind fun es es' hes => matches_build ?_ _ _
    rw [Form.map, Form.map, hes]
  | _, _, .set entries => by
    rw [lower, lower]
    refine (matches_addEntries entries (Draft.view_empty _ _ _)).bind fun d d' hd => ?_
    refine (Draft.matches_bindings hd).bind fun g g' hg => matches_build ?_ _ _
    rw [Form.map, Form.map, hg]
  | _, _, .letIn entries body => by
    rw [lower, lower]
    refine (matches_addEntries entries (Draft.view_empty _ _ _)).bind fun d d' hd => ?_
    refine (Draft.matches_bindings hd).bind fun g g' hg => (matches_lower body).bind fun b b' hb => matches_build ?_ _ _
    rw [Form.map, Form.map, hg, hb]
  | _, _, .letBraces => by
    rw [lower, lower]
    exact (matches_build rfl _ _).warn _ _
  | _, _, .lambda param body => by
    rw [lower, lower]
    refine (matches_lowerParam param).bind fun p p' hp => (matches_lower body).bind fun b b' hb => matches_build ?_ _ _
    rw [Form.map, Form.map, hp, hb]
  | _, _, .apply fn arg => by
    rw [lower, lower]
    refine (matches_lower fn).bind fun f f' hf => (matches_lower arg).bind fun a a' ha => matches_build ?_ _ _
    rw [Form.map, Form.map, hf, ha]
  | _, _, .select subject steps dflt => by
    rw [lower, lower]
    refine (matches_lower subject).bind fun e e' he => (matches_lowerAttrs steps).bind fun es es' hes => ?_
    refine (matches_lowerOption dflt).bind fun o o' ho => matches_build ?_ _ _
    rw [Form.map, Form.map, he, hes, ho]
  | _, _, .hasAttr subject steps => by
    rw [lower, lower]
    refine (matches_lower subject).bind fun e e' he => (matches_lowerAttrs steps).bind fun es es' hes => ?_
    refine matches_build ?_ _ _
    rw [Form.map, Form.map, he, hes]
  | _, _, .unary operand => by
    rw [lower, lower]
    refine (matches_lower operand).bind fun e e' he => matches_build ?_ _ _
    rw [Form.map, Form.map, he]
  | _, _, .binary left right => by
    rw [lower, lower]
    refine (matches_lower left).bind fun l l' hl => (matches_lower right).bind fun r r' hr => matches_build ?_ _ _
    rw [Form.map, Form.map, hl, hr]
  | _, _, .ifElse cond yes no => by
    rw [lower, lower]
    refine (matches_lower cond).bind fun c c' hc => (matches_lower yes).bind fun y y' hy => ?_
    refine (matches_lower no).bind fun n n' hn => matches_build ?_ _ _
    rw [Form.map, Form.map, hc, hy, hn]
  | _, _, .withIn scope body => by
    rw [lower, lower]
    refine (matches_lower scope).bind fun e e' he => (matches_lower body).bind fun b b' hb => matches_build ?_ _ _
    rw [Form.map, Form.map, he, hb]
  | _, _, .assertIn cond body => by
    rw [lower, lower]
    refine (matches_lower cond).bind fun c c' hc => (matches_lower body).bind fun b b' hb => matches_build ?_ _ _
    rw [Form.map, Form.map, hc, hb]

theorem matches_lowerAll : ∀ {ts ts' : List Tree}, SpreadsAll ts ts' →
    Matches (List.map Expr.nodes) (lowerAll text ts) (lowerAll text' ts')
  | _, _, .nil => by
    rw [lowerAll, lowerAll]
    exact agree_pure rfl
  | _, _, .cons head rest => by
    rw [lowerAll, lowerAll]
    refine (matches_lower head).bind fun e e' he => (matches_lowerAll rest).bind fun es es' hes => agree_pure ?_
    rw [List.map_cons, List.map_cons, he, hes]

theorem matches_lowerOption : ∀ {t t' : Option Tree}, SpreadsOption t t' →
    Matches (Option.map Expr.nodes) (lowerOption text t) (lowerOption text' t')
  | _, _, .none => by
    rw [lowerOption, lowerOption]
    exact agree_pure rfl
  | _, _, .some inner => by
    rw [lowerOption, lowerOption]
    exact (matches_lower inner).map fun e e' he => congrArg some he

theorem matches_lowerOrMissing : ∀ {t t' : Option Tree}, SpreadsOption t t' →
    Matches Expr.nodes (lowerOrMissing text t) (lowerOrMissing text' t')
  | _, _, .none => by
    rw [lowerOrMissing, lowerOrMissing]
    exact matches_missing
  | _, _, .some inner => by
    rw [lowerOrMissing, lowerOrMissing]
    exact matches_lower inner

theorem matches_lowerPieces : ∀ {ps ps' : List (Piece Tree)}, SpreadsPieces ps ps' →
    Matches (List.map (Piece.map Expr.nodes)) (lowerPieces text ps) (lowerPieces text' ps')
  | _, _, .nil => by
    rw [lowerPieces, lowerPieces]
    exact agree_pure rfl
  | _, _, .text rest => by
    rw [lowerPieces, lowerPieces]
    exact (matches_lowerPieces rest).bind fun ps ps' hps => agree_pure (congrArg (Piece.text _ :: ·) hps)
  | _, _, .interp head rest => by
    rw [lowerPieces, lowerPieces]
    refine (matches_lower head).bind fun e e' he => (matches_lowerPieces rest).bind fun ps ps' hps => agree_pure ?_
    rw [List.map_cons, List.map_cons, hps, Piece.map, Piece.map, he]

theorem matches_lowerAttr : ∀ {a a' : Attr Tree}, SpreadsAttr a a' →
    Matches Expr.nodes (lowerAttr text a) (lowerAttr text' a')
  | _, _, .ident => by
    rw [lowerAttr, lowerAttr]
    exact matches_build rfl _ _
  | _, _, .string pieces => by
    rw [lowerAttr, lowerAttr]
    exact matches_buildString _ _ pieces (matches_lowerPieces pieces)
  | _, _, .dynamic inner => by
    rw [lowerAttr, lowerAttr]
    exact matches_lowerOrMissing inner

theorem matches_lowerAttrs : ∀ {as as' : List (Attr Tree)}, SpreadsAttrs as as' →
    Matches (List.map Expr.nodes) (lowerAttrs text as) (lowerAttrs text' as')
  | _, _, .nil => by
    rw [lowerAttrs, lowerAttrs]
    exact agree_pure rfl
  | _, _, .cons head rest => by
    rw [lowerAttrs, lowerAttrs]
    refine (matches_lowerAttr head).bind fun e e' he => (matches_lowerAttrs rest).bind fun es es' hes => agree_pure ?_
    rw [List.map_cons, List.map_cons, he, hes]

theorem alike_keysOf : ∀ {as as' : List (Attr Tree)}, SpreadsAttrs as as' →
    List.Forall₂ Key.Alike (keysOf text as) (keysOf text' as')
  | _, _, .nil => by
    rw [keysOf, keysOf]
    exact .nil
  | _, _, .cons head rest => by
    rw [keysOf, keysOf, keyOf_eq, keyOf_eq, head.known?_eq]
    refine .cons ?_ (alike_keysOf rest)
    split
    · exact .fixed
    · exact .computed (matches_lowerAttr head)

theorem matches_lowerParam : ∀ {p p' : Param Tree}, SpreadsParam p p' →
    Matches (Param.map Expr.nodes) (lowerParam text p) (lowerParam text' p')
  | _, _, .name => by
    rw [lowerParam, lowerParam]
    exact agree_pure rfl
  | _, _, .fields defaults => by
    rw [lowerParam, lowerParam]
    refine (matches_lowerFields defaults).bind fun fs fs' hfs => agree_pure ?_
    rw [Param.map, Param.map, hfs]

theorem matches_lowerFields : ∀ {fs fs' : List (String × Option Tree)}, SpreadsFields fs fs' →
    Matches (List.map fun f : String × Option Expr => (f.1, f.2.map Expr.nodes)) (lowerFields text fs)
      (lowerFields text' fs')
  | _, _, .nil => by
    rw [lowerFields, lowerFields]
    exact agree_pure rfl
  | _, _, .cons head rest => by
    rw [lowerFields, lowerFields]
    refine (matches_lowerOption head).bind fun o o' ho => (matches_lowerFields rest).bind fun fs fs' hfs =>
      agree_pure ?_
    rw [List.map_cons, List.map_cons, ho, hfs]

theorem alike_setLiteral : ∀ {t t' : Tree}, Spreads t t' →
    Option.Rel SetLiteral.Alike (setLiteral? text t) (setLiteral? text' t')
  | _, _, .set entries => by
    rw [setLiteral?, setLiteral?]
    exact .some ⟨rfl, matches_addEntries entries⟩
  | _, _, .ident | _, _, .integer | _, _, .float | _, _, .uri | _, _, .string _ | _, _, .path _ | _, _, .paren _
  | _, _, .list _ | _, _, .letIn _ _ | _, _, .letBraces | _, _, .lambda _ _ | _, _, .apply _ _ | _, _, .select _ _ _
  | _, _, .hasAttr _ _ | _, _, .unary _ | _, _, .binary _ _ | _, _, .ifElse _ _ _ | _, _, .withIn _ _
  | _, _, .assertIn _ _ => .none

theorem matches_addEntries :
    ∀ {es es' : List (Entry Tree)}, SpreadsEntries es es' → ∀ {d d' : Draft}, d.view = d'.view →
    Matches Draft.view (addEntries text es d) (addEntries text' es' d')
  | _, _, .nil, d, d', h => by
    rw [addEntries, addEntries]
    exact agree_pure h
  | _, _, .bind steps value rest, d, d', h => by
    rw [addEntries, addEntries, addEntry, addEntry]
    refine Agree.bind ?_ fun d₁ d₁' h₁ => matches_addEntries rest h₁
    exact Draft.matches_bindPath ⟨matches_lower value, alike_setLiteral value⟩ (alike_keysOf steps) h
  | _, _, .inherit .none names rest, d, d', h => by
    rw [addEntries, addEntries, addEntry, addEntry, lowerOption, lowerOption]
    refine Agree.bind ?_ fun d₁ d₁' h₁ => matches_addEntries rest h₁
    exact Draft.matches_inheritNames none (alike_keysOf names) h
  | _, _, .inherit (.some inner) names rest, d, d', h => by
    rw [addEntries, addEntries, addEntry, addEntry, lowerOption, lowerOption, bind_map_left, bind_map_left]
    refine Agree.bind ((matches_lower inner).bind fun e e' he => ?_) fun d₁ d₁' h₁ => matches_addEntries rest h₁
    obtain ⟨hnumber, hview⟩ := Draft.view_pushSource h he
    show Matches Draft.view (Draft.inheritNames (some (d.pushSource e).1) _ _)
      (Draft.inheritNames (some (d'.pushSource e').1) _ _)
    rw [hnumber]
    exact Draft.matches_inheritNames _ (alike_keysOf names) hview
  | _, _, .spread steps nonempty known inner filled paths rest, d, d', h => by
    rw [addEntries, addEntry, addEntries_append]
    refine Agree.bind ?_ fun d₁ d₁' h₁ => matches_addEntries rest h₁
    exact matches_bindPath_prefixed rfl rfl (matches_addEntries inner) filled paths (steady_of_spreads inner)
      (alike_keysOf steps) nonempty known h

/-- Entries that others are spread to are steady: both ends of an agreement agree with themselves. -/
theorem steady_of_spreads : ∀ {es es' : List (Entry Tree)}, SpreadsEntries es es' → ∀ c ∈ es', c.Steady text'
  | _, _, .nil => by simp
  | _, _, .bind steps value rest => by
    have hvalue : BoundValue.Alike ⟨lower text _, setLiteral? text _⟩ ⟨lower text' _, setLiteral? text' _⟩ :=
      ⟨matches_lower value, alike_setLiteral value⟩
    exact List.forall_mem_cons.2 ⟨⟨hvalue.right, Key.alike_right (alike_keysOf steps)⟩, steady_of_spreads rest⟩
  | _, _, .inherit _ _ rest => List.forall_mem_cons.2 ⟨trivial, steady_of_spreads rest⟩
  | _, _, .spread _ _ known inner _ _ rest => by
    intro c hc
    rcases List.mem_append.1 hc with hc | hc
    · obtain ⟨q, hq, rfl⟩ := List.mem_map.1 hc
      exact steady_prefixed (steady_of_spreads inner q hq) known
    · exact steady_of_spreads rest c hc

end

end Matches

end Tree

end NixTyping
