import NixTyping.Expr.OfTree
/-!
# Parts of syntax trees

The trees of which a tree is made, and what an entry does in the group that it is added to:
the names that it binds there, the source that it brings and what it adds to the set under a
name. The entries that one group is made of can stand in several places of a tree
(`Tree.Forms`).
-/

namespace NixTyping

section Parts
variable {α : Type}

/-- The trees in a step of an attribute path. -/
def Attr.parts : Attr α → List α
  | .ident _ _ => []
  | .string _ ps => ps.filterMap Piece.interp?
  | .dynamic _ t => t.toList

def Entry.parts : Entry α → List α
  | .bind path value => path.flatMap Attr.parts ++ [value]
  | .inherit source names => source.toList ++ names.flatMap Attr.parts

/-- The tree of the source that an entry brings. -/
def Entry.source? : Entry α → Option α
  | .bind _ _ => none
  | .inherit source _ => source

end Parts

/-- The name that a step stands for, if it is known. -/
def Attr.known? : Attr Tree → Option String
  | .ident _ name => some name
  | .string _ ps => StringText.literal? ps
  | .dynamic _ t => t.bind Tree.stringLiteral?

namespace Entry

/-- The names that an entry binds in its group. -/
def binds : Entry Tree → List String
  | .bind path _ => (path.take 1).filterMap Attr.known?
  | .inherit _ names => names.filterMap Attr.known?

/-- The steps for names that an entry leaves to be computed. -/
def computed : Entry Tree → List (Attr Tree)
  | .bind path _ => (path.take 1).filter (·.known?.isNone)
  | .inherit _ names => names.filter (·.known?.isNone)

end Entry

namespace Tree

/-- The trees of which a tree is made. -/
def parts : Tree → List Tree
  | .ident _ _ | .integer _ _ | .float _ _ | .uri _ | .letBraces _ => []
  | .string _ ps | .path _ ps => ps.filterMap Piece.interp?
  | .paren _ inner => [inner]
  | .list _ items => items
  | .set _ _ es => es.flatMap Entry.parts
  | .letIn _ es body => es.flatMap Entry.parts ++ [body]
  | .lambda _ param body => param.defaults ++ [body]
  | .apply _ fn arg => [fn, arg]
  | .select _ subject steps dflt => subject :: steps.flatMap Attr.parts ++ dflt.toList
  | .hasAttr _ subject steps => subject :: steps.flatMap Attr.parts
  | .unary _ _ operand => [operand]
  | .binary _ _ l r => [l, r]
  | .ifElse _ cond yes no => [cond, yes, no]
  | .withIn _ scope body => [scope, body]
  | .assertIn _ cond body => [cond, body]

/-- The entries of a set or `let`. -/
def entries : Tree → List (Entry Tree)
  | .set _ _ es | .letIn _ es _ => es
  | _ => []

/-- The tree is a set literal, to which more can be added. -/
def isSet : Tree → Bool
  | .set _ _ _ => true
  | _ => false

def isRecSet : Tree → Bool
  | .set _ isRec _ => isRec
  | _ => false

theorem isRecSet_of_isSet {t : Tree} (h : t.isSet = false) : t.isRecSet = false := by
  cases t <;> first | rfl | cases h

end Tree

namespace Entry

/-- The entry makes a set of the name that it binds. -/
def opens : Entry Tree → Bool
  | .bind [] _ | .inherit _ _ => false
  | .bind [_] value => value.isSet
  | .bind (_ :: _ :: _) _ => true

/-- The entries that an entry adds to the set under a name. -/
def under (name : String) : Entry Tree → List (Entry Tree)
  | .bind [] _ | .inherit _ _ => []
  | .bind [a] value => if a.known? = some name ∧ value.isSet then value.entries else []
  | .bind (a :: b :: steps) value => if a.known? = some name then [.bind (b :: steps) value] else []

/-- The entry makes the set under a name recursive. -/
def recursive (name : String) : Entry Tree → Bool
  | .bind [a] value => a.known? = some name ∧ value.isRecSet
  | _ => false

theorem under_of_not_mem {name : String} {c : Entry Tree} (h : name ∉ c.binds) : c.under name = [] := by
  cases c with
  | inherit source names => rfl
  | bind path value =>
    rcases path with _ | ⟨a, _ | ⟨b, steps⟩⟩
    · rfl
    all_goals
      have hknown : a.known? ≠ some name := fun hknown => h (by simp [binds, hknown])
      simp [under, hknown]

theorem recursive_of_not_mem {name : String} {c : Entry Tree} (h : name ∉ c.binds) : c.recursive name = false := by
  cases c with
  | inherit source names => rfl
  | bind path value =>
    rcases path with _ | ⟨a, _ | ⟨b, steps⟩⟩
    · rfl
    · have hknown : a.known? ≠ some name := fun hknown => h (by simp [binds, hknown])
      simp [recursive, hknown]
    · rfl

end Entry

namespace Tree

/-- The tree stands in the root, at any depth. -/
inductive Under (root : Tree) : Tree → Prop where
  | self : Under root root
  | part {t p : Tree} (under : Under root t) (mem : p ∈ t.parts) : Under root p

/-- The entries make one group of the root: those of a set or `let`, all that goes into the set under a name of a
group, or what a computed name leaves of a path. -/
inductive Forms (root : Tree) : List (Entry Tree) → Prop where
  | literal {t : Tree} (under : root.Under t) : Forms root t.entries
  | under {cs : List (Entry Tree)} (forms : Forms root cs) (name : String) : Forms root (cs.flatMap (Entry.under name))
  | computed {cs : List (Entry Tree)} {a b : Attr Tree} {steps : List (Attr Tree)} {value : Tree}
    (forms : Forms root cs) (mem : .bind (a :: b :: steps) value ∈ cs) (unknown : a.known? = none) :
    Forms root [.bind (b :: steps) value]

/-- The entry is one of those that make a group of the root. -/
def Writes (root : Tree) (c : Entry Tree) : Prop := ∃ cs, root.Forms cs ∧ c ∈ cs

section Writes
variable {root : Tree}

theorem mem_parts_of_entries {t p : Tree} {c : Entry Tree} (hc : c ∈ t.entries) (hp : p ∈ c.parts) : p ∈ t.parts := by
  cases t with
  | set span isRec es => exact List.mem_flatMap.2 ⟨c, hc, hp⟩
  | letIn span es body => exact List.mem_append_left _ (List.mem_flatMap.2 ⟨c, hc, hp⟩)
  | _ => cases hc

theorem mem_parts_of_step {p : Tree} {a : Attr Tree} {steps : List (Attr Tree)} {value : Tree}
    (hp : p ∈ (Entry.bind steps value).parts) : p ∈ (Entry.bind (a :: steps) value).parts := by
  simp only [Entry.parts, List.flatMap_cons, List.append_assoc]
  exact List.mem_append_right _ hp

theorem Forms.part {cs : List (Entry Tree)} (h : root.Forms cs) : ∀ c ∈ cs, ∀ p ∈ c.parts, root.Under p := by
  induction h with
  | literal under => exact fun c hc p hp => under.part (mem_parts_of_entries hc hp)
  | @under cs forms name ih =>
    intro c hc p hp
    obtain ⟨c₀, hc₀, hc⟩ := List.mem_flatMap.1 hc
    cases c₀ with
    | inherit source names => cases hc
    | bind path value =>
      rcases path with _ | ⟨a, _ | ⟨b, steps⟩⟩
      · cases hc
      · rw [Entry.under] at hc
        split at hc
        · have hvalue := ih _ hc₀ value (List.mem_append_right _ List.mem_cons_self)
          exact hvalue.part (mem_parts_of_entries hc hp)
        · cases hc
      · rw [Entry.under] at hc
        split at hc
        · rw [List.mem_singleton.1 hc] at hp
          exact ih _ hc₀ p (mem_parts_of_step hp)
        · cases hc
  | computed forms mem unknown ih =>
    intro c hc p hp
    rw [List.mem_singleton.1 hc] at hp
    exact ih _ mem p (mem_parts_of_step hp)

theorem Writes.part {p : Tree} {c : Entry Tree} (h : root.Writes c) (hp : p ∈ c.parts) : root.Under p := by
  obtain ⟨cs, hcs, hc⟩ := h
  exact hcs.part c hc p hp

theorem Writes.value {value : Tree} {steps : List (Attr Tree)} (h : root.Writes (.bind steps value)) :
    root.Under value :=
  h.part (List.mem_append_right _ List.mem_cons_self)

/-- What a computed name leaves of a path makes a group of its own. -/
theorem Writes.forms {a b : Attr Tree} {steps : List (Attr Tree)} {value : Tree}
    (h : root.Writes (.bind (a :: b :: steps) value)) (ha : a.known? = none) :
    root.Forms [.bind (b :: steps) value] := by
  obtain ⟨cs, hcs, hmem⟩ := h
  exact hcs.computed hmem ha

theorem Writes.rest {a b : Attr Tree} {steps : List (Attr Tree)} {value : Tree}
    (h : root.Writes (.bind (a :: b :: steps) value)) : root.Writes (.bind (b :: steps) value) := by
  cases ha : a.known? with
  | none => exact ⟨_, h.forms ha, List.mem_cons_self⟩
  | some name =>
    obtain ⟨cs, hcs, hmem⟩ := h
    exact ⟨_, hcs.under name, List.mem_flatMap.2 ⟨_, hmem, by simp [Entry.under, ha]⟩⟩

end Writes

/-- A step of the path of a binding is a known name, or is built as a step of a selection is. -/
theorem keyOf_eq (source : String) (a : Attr Tree) :
    keyOf source a = match a.known? with
      | some name => .fixed name a.span
      | none => .computed a.span (lowerAttr source a) := by
  cases a with
  | ident span name => rw [keyOf]; rfl
  | string span ps => rw [keyOf, lowerAttr]; rfl
  | dynamic span t => rw [keyOf, lowerAttr]; rfl

end Tree

end NixTyping
