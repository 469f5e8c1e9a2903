import Mathlib
import NixTyping.Proofs.CoreWalk
import NixTyping.Proofs.Explained
import NixTyping.Proofs.Overloading
/-!
# Operator expressions have the type of the table

An expression of literals, constants and operators has a reference type, read off the
signatures from the leaves up (`Expr.tableType`). Inference finds this type and nothing
else (`operators_typed`).

The equations of an expression come part by part, and those of a part leave one
substitution, under which its type is primitive, or none (`Verdict`). So an operator
meets its signature at known operands, and at most one row of the signature has them
(`Ty.Tabulates`).
-/

namespace NixTyping

open Search Judging

/-! ## Reference types -/

/-- The type of a literal is primitive. -/
def Literal.prim : Literal → Prim
  | .int _ => .int
  | .float _ => .float
  | .string _ => .string
  | .path _ => .path
  | .uri => .uri

theorem Literal.ty_eq (l : Literal) : l.ty = .prim l.prim := by cases l <;> rfl

/-- The primitive type of a constant. -/
def constantType : String → Option Prim
  | "true" | "false" => some .bool
  | "null" => some .null
  | _ => none

theorem exists_constantType {x : String} (h : x ∈ ["true", "false", "null"]) :
    ∃ p, constantType x = some p ∧ constant? x = some (.prim p) := by
  simp only [List.mem_cons, List.not_mem_nil, or_false] at h
  rcases h with rfl | rfl | rfl <;> exact ⟨_, rfl, rfl⟩

namespace Ty

/-- The result of a function of primitive operands. -/
def resultOf : Ty → List Prim → Option Prim
  | .prim p, [] => some p
  | .fn (.prim p) t, q :: qs => if p = q then t.resultOf qs else none
  | _, _ => none

/-- The result of the alternative of a signature that has these operands. -/
def resultAt (sig : Ty) (operands : List Prim) : Option Prim := sig.alternatives.findSome? (·.resultOf operands)

end Ty

/-- An operator without a signature compares any two values. -/
def BinOp.resultAt (op : BinOp) (l r : Prim) : Option Prim :=
  match op.signature with
  | none => some .bool
  | some sig => sig.resultAt [l, r]

mutual

/-- The reference type of an expression of literals, constants and operators. -/
def Expr.tableType : Expr → Option Prim
  | .mk _ _ form => formType form

def formType : Form Expr → Option Prim
  | .literal l => some l.prim
  | .ref x => constantType x
  | .unary op e => do op.signature.resultAt [← e.tableType]
  | .binary op l r => do op.resultAt (← l.tableType) (← r.tableType)
  | .ifElse c y n => do
    let cond ← c.tableType
    let yes ← y.tableType
    let no ← n.tableType
    if cond = .bool ∧ yes = no then some yes else none
  | .assertIn c b => do
    let cond ← c.tableType
    let body ← b.tableType
    if cond = .bool then some body else none
  | _ => none

end

/-- Expressions of literals, constants and operators on primitive values. -/
inductive Expr.Operational : Expr → Prop where
  | literal (id : Nat) (span : Option Span) (l : Literal) : Operational (.mk id span (.literal l))
  | constant (id : Nat) (span : Option Span) {x : String} (known : x ∈ ["true", "false", "null"]) :
    Operational (.mk id span (.ref x))
  | unary (id : Nat) (span : Option Span) (op : UnaryOp) {e : Expr} :
    Operational e → Operational (.mk id span (.unary op e))
  | binary (id : Nat) (span : Option Span) {op : BinOp} (primitive : op ≠ .concat ∧ op ≠ .update) {l r : Expr} :
    Operational l → Operational r → Operational (.mk id span (.binary op l r))
  | ifElse (id : Nat) (span : Option Span) {c y n : Expr} :
    Operational c → Operational y → Operational n → Operational (.mk id span (.ifElse c y n))
  | assertIn (id : Nat) (span : Option Span) {c b : Expr} :
    Operational c → Operational b → Operational (.mk id span (.assertIn c b))

/-! ## Signatures as tables -/

namespace Ty

/-- The function type of a row: its operands and its result. -/
def ofRow (row : List Prim × Prim) : Ty := .fns (row.1.map .prim) (.prim row.2)

/-- The signature is made of rows of one length, each for other operands. -/
structure Tabulates (m : Nat) (rows : List (List Prim × Prim)) (sig : Ty) : Prop where
  eq : sig = .overloads (rows.map ofRow)
  alternatives : sig.alternatives = rows.map ofRow
  nonempty : rows ≠ []
  nodup : (rows.map (·.1)).Nodup
  length : ∀ row ∈ rows, row.1.length = m

theorem resultOf_ofRow (row : List Prim × Prim) (ps : List Prim) :
    (ofRow row).resultOf ps = if row.1 = ps then some row.2 else none := by
  obtain ⟨qs, r⟩ := row
  induction qs generalizing ps with
  | nil => cases ps <;> rfl
  | cons q qs ih =>
    cases ps with
    | nil => rfl
    | cons p ps =>
      show (if q = p then (ofRow (qs, r)).resultOf ps else none) = _
      rw [ih ps]
      by_cases h : q = p <;> simp [h]

end Ty

theorem UnaryOp.tabulates_signature (op : UnaryOp) : ∃ rows, op.signature.Tabulates 1 rows := by
  cases op with
  | not => exact ⟨[([.bool], .bool)], rfl, rfl, by simp, by decide, by decide⟩
  | negate => exact ⟨[([.int], .int), ([.float], .float)], rfl, rfl, by simp, by decide, by decide⟩

theorem BinOp.tabulates_signature {op : BinOp} (hop : op ≠ .concat ∧ op ≠ .update) {sig : Ty}
    (h : op.signature = some sig) : ∃ rows, sig.Tabulates 2 rows := by
  -- the lists carry their types, without which they are slow to elaborate
  have harithmetic : ∃ rows, (Ty.overloads arithmeticSignatures).Tabulates 2 rows :=
    ⟨numberPairs.map fun p => ([p.1, p.2], arithmeticResult p), rfl, rfl, by decide, by decide, by decide⟩
  have haddition : ∃ rows, (Ty.overloads (arithmeticSignatures ++ ([.binary .string .string .string,
      .binary .path .path .path, .binary .path .string .path,
      .binary .string .path .string] : List Ty))).Tabulates 2 rows :=
    ⟨numberPairs.map (fun p => ([p.1, p.2], arithmeticResult p)) ++ ([([.string, .string], .string),
      ([.path, .path], .path), ([.path, .string], .path), ([.string, .path], .string)] : List (List Prim × Prim)),
      rfl, rfl, by decide, by decide, by decide⟩
  have hcomparison : ∃ rows, (Ty.overloads (comparisonSignatures ++ ([.binary .string .string .bool,
      .binary .path .path .bool] : List Ty))).Tabulates 2 rows :=
    ⟨numberPairs.map (fun p => ([p.1, p.2], .bool)) ++ ([([.string, .string], .bool), ([.path, .path], .bool)] :
      List (List Prim × Prim)), rfl, rfl, by decide, by decide, by decide⟩
  have hlogic : ∃ rows, (Ty.binary .bool .bool .bool).Tabulates 2 rows :=
    ⟨[([.bool, .bool], .bool)], rfl, rfl, by decide, by decide, by decide⟩
  cases op with
  | add => cases h; exact haddition
  | sub | mul | div => cases h; exact harithmetic
  | less | lessEq | more | moreEq => cases h; exact hcomparison
  | and | or | implies => cases h; exact hlogic
  | equal | notEqual => cases h
  | concat => exact absurd rfl hop.1
  | update => exact absurd rfl hop.2

/-! ## Unification with a row -/

section Rows
variable {v m : Nat} {ps : List Prim}

theorem Ty.mem_free_fns {ts : List Ty} {t : Ty} : v ∈ (Ty.fns ts t).free ↔ (∃ u ∈ ts, v ∈ u.free) ∨ v ∈ t.free := by
  induction ts with
  | nil => simp [Ty.fns]
  | cons u ts ih =>
    rw [Ty.fns, List.foldr_cons, ← Ty.fns, Ty.mem_free_fn, ih]
    simp [or_assoc]

theorem Ty.mem_free_applied {w : Nat} : w ∈ (Ty.fns (ps.map .prim) (.var v)).free ↔ w = v := by
  simp [Ty.mem_free_fns]

theorem Ty.free_ofRow (row : List Prim × Prim) (w : Nat) : w ∉ (Ty.ofRow row).free := by
  simp [Ty.ofRow, Ty.mem_free_fns]

theorem Ty.subst_fns (f : Nat → Ty) (ts : List Ty) (t : Ty) :
    (Ty.fns ts t).subst f = .fns (ts.map (Ty.subst f)) (t.subst f) := by
  induction ts with
  | nil => rfl
  | cons u ts ih => exact congrArg (Ty.fn (u.subst f)) ih

theorem Ty.wellFormed_fns {ts : List Ty} (hts : ∀ t ∈ ts, t.WellFormed) {t : Ty} (ht : t.WellFormed) :
    (Ty.fns ts t).WellFormed := by
  induction ts with
  | nil => exact ht
  | cons u ts ih => exact .fn (hts u (by simp)) (ih fun t ht => hts t (by simp [ht]))

theorem Ty.Tabulates.wellFormed {sig : Ty} {rows : List (List Prim × Prim)} (h : sig.Tabulates m rows) :
    sig.WellFormed := by
  rw [h.eq]
  refine .overloads (by simpa using h.nonempty) fun t ht => ?_
  obtain ⟨row, -, rfl⟩ := List.mem_map.1 ht
  exact Ty.wellFormed_fns (by simp) (.prim _)

theorem Ty.Tabulates.closed {sig : Ty} {rows : List (List Prim × Prim)} (h : sig.Tabulates m rows) (w : Nat) :
    w ∉ sig.free := by
  intro hw
  rw [h.eq, Ty.mem_free_overloads] at hw
  obtain ⟨t, ht, hw⟩ := hw
  obtain ⟨row, -, rfl⟩ := List.mem_map.1 ht
  exact Ty.free_ofRow row w hw

theorem Subst.empty_compose (s : Subst) : Subst.compose ∅ s = s := by
  obtain ⟨bs, hs⟩ := s
  show Subst.mk _ _ = _
  congr 1
  exact List.map_id bs

/-- A pair with nothing behind it. -/
theorem substs_unifyAll_singleton (l r : Ty) : (Ty.unifyAll [l] [r]).substs = (l.unify r).substs := by
  have hone : ∀ s : Subst, (Ty.unifyAll [] []).substs.map (·.compose s) = [s] := by
    intro s
    rw [Ty.unifyAll_nil]
    simp [Branches.one, Subst.empty_compose]
  rw [Unification.substs_unifyAll_cons]
  exact (List.flatMap_congr fun s _ => hone s).trans (List.flatMap_singleton' _)

theorem substs_unify_prim (p q : Prim) : ((Ty.prim p).unify (.prim q)).substs = if p = q then [∅] else [] := by
  by_cases h : p = q
  · rw [h, Ty.unify_same, if_pos rfl]
    rfl
  · rw [Ty.unify_clash rfl rfl (by simpa using h), if_neg h]
    rfl

/-- A row answers for its own operands only. -/
theorem substs_unify_row {row : List Prim × Prim} (h : row.1.length = ps.length) :
    ((Ty.fns (ps.map .prim) (.var v)).unify (.ofRow row)).substs =
      ((Ty.ofRow row).resultOf ps).toList.map fun p => Subst.single v (.prim p) := by
  obtain ⟨qs, r⟩ := row
  induction ps generalizing qs with
  | nil =>
    obtain rfl : qs = [] := List.length_eq_zero_iff.1 h
    show ((Ty.var v).unify (.prim r)).substs = _
    rw [Ty.unify_var_left (by simp)]
    rfl
  | cons p ps ih =>
    obtain ⟨q, qs, rfl⟩ := List.exists_cons_of_length_eq_add_one h
    have hne : Ty.fns ((p :: ps).map .prim) (.var v) ≠ .ofRow (q :: qs, r) := by
      intro heq
      have hv : v ∈ (Ty.fns ((p :: ps).map .prim) (.var v)).free := Ty.mem_free_applied.2 rfl
      exact Ty.free_ofRow _ v (heq ▸ hv)
    have hfn : (Ty.fns ((p :: ps).map .prim) (.var v)).unify (.ofRow (q :: qs, r)) =
        Ty.unifyAll [.prim p, .fns (ps.map .prim) (.var v)] [.prim q, .ofRow (qs, r)] := Ty.unify_fn hne
    rw [hfn, Unification.substs_unifyAll_cons, substs_unify_prim, Ty.resultOf_ofRow]
    by_cases hpq : p = q
    · subst hpq
      have hrest := ih qs (by simpa using h)
      rw [Ty.resultOf_ofRow] at hrest
      rw [if_pos rfl, List.flatMap_singleton, Ty.map_apply_empty, Ty.map_apply_empty, substs_unifyAll_singleton, hrest]
      by_cases hps : qs = ps <;> simp [hps]
      rfl
    · rw [if_neg hpq]
      simp [Ne.symm hpq]

/-- Of rows for different operands at most one answers. -/
theorem flatMap_resultOf {rows : List (List Prim × Prim)} (h : (rows.map (·.1)).Nodup) (ps : List Prim) :
    (rows.map Ty.ofRow).flatMap (fun t => (t.resultOf ps).toList) =
      ((rows.map Ty.ofRow).findSome? (·.resultOf ps)).toList := by
  induction rows with
  | nil => rfl
  | cons row rows ih =>
    obtain ⟨hrow, hrows⟩ := List.nodup_cons.1 h
    rw [List.map_cons, List.flatMap_cons, List.findSome?_cons, ih hrows, Ty.resultOf_ofRow]
    by_cases hps : row.1 = ps
    · have hnone : (rows.map Ty.ofRow).findSome? (·.resultOf ps) = none := by
        refine List.findSome?_eq_none_iff.2 fun t ht => ?_
        obtain ⟨row', hrow', rfl⟩ := List.mem_map.1 ht
        rw [Ty.resultOf_ofRow, if_neg]
        intro heq
        exact hrow (List.mem_map.2 ⟨row', hrow', heq.trans hps.symm⟩)
      rw [if_pos hps, hnone]
      rfl
    · rw [if_neg hps]
      rfl

/-- At given operands a signature answers with the result of its row, if it has one. -/
theorem Ty.Tabulates.substs_unify {sig : Ty} {rows : List (List Prim × Prim)} (h : sig.Tabulates m rows)
    (hps : ps.length = m) (hm : m ≠ 0) (v : Nat) :
    ((Ty.fns (ps.map .prim) (.var v)).unify sig).substs =
      (sig.resultAt ps).toList.map fun p => Subst.single v (.prim p) := by
  obtain ⟨p, ps, rfl⟩ := List.exists_cons_of_ne_nil (List.ne_nil_of_length_pos (by omega : 0 < ps.length))
  have hrows : ∀ a ∈ rows.map ofRow, ((Ty.fns ((p :: ps).map .prim) (.var v)).unify a).substs =
      (a.resultOf (p :: ps)).toList.map fun p => Subst.single v (.prim p) := by
    intro a ha
    obtain ⟨row, hrow, rfl⟩ := List.mem_map.1 ha
    exact substs_unify_row ((h.length row hrow).trans hps.symm)
  rw [Unification.substs_unify_alternatives (by simp [Ty.fns, Ty.Single]) (by simp [Ty.fns]), resultAt, h.alternatives,
    List.flatMap_congr hrows, ← flatMap_resultOf h.nodup, List.map_flatMap]

end Rows

/-! ## Equations with one answer -/

/-- Equations between well-formed types. -/
def WellFormedEquations (eqs : List (Ty × Ty)) : Prop := ∀ e ∈ eqs, e.1.WellFormed ∧ e.2.WellFormed

/-- Both sides of every equation after a substitution. -/
def substEach (f : Nat → Ty) (eqs : List (Ty × Ty)) : List (Ty × Ty) := eqs.map fun e => (e.1.subst f, e.2.subst f)

section Equations
variable {f g : Nat → Ty} {eqs eqs' : List (Ty × Ty)}

theorem WellFormedEquations.append (h : WellFormedEquations eqs) (h' : WellFormedEquations eqs') :
    WellFormedEquations (eqs ++ eqs') := fun e he => (List.mem_append.1 he).elim (h e) (h' e)

theorem WellFormedEquations.substEach (h : WellFormedEquations eqs) (hf : ∀ v, (f v).WellFormed) :
    WellFormedEquations (substEach f eqs) := by
  intro e he
  obtain ⟨d, hd, rfl⟩ := List.mem_map.1 he
  exact ⟨(h d hd).1.subst fun v _ => hf v, (h d hd).2.subst fun v _ => hf v⟩

theorem substEach_append (f : Nat → Ty) (eqs eqs' : List (Ty × Ty)) :
    substEach f (eqs ++ eqs') = substEach f eqs ++ substEach f eqs' := List.map_append

theorem substEach_substEach (h : WellFormedEquations eqs) (hf : ∀ v, (f v).WellFormed) (hg : ∀ v, (g v).WellFormed) :
    substEach g (substEach f eqs) = substEach (fun v => (f v).subst g) eqs := by
  rw [substEach, substEach, List.map_map]
  refine List.map_congr_left fun e he => ?_
  exact Prod.ext (Ty.subst_subst (h e he).1 (fun v _ => hf v) fun v _ => hg v)
    (Ty.subst_subst (h e he).2 (fun v _ => hf v) fun v _ => hg v)

theorem substEach_eq_self (h : WellFormedEquations eqs)
    (hf : ∀ e ∈ eqs, ∀ v, v ∈ e.1.free ∨ v ∈ e.2.free → f v = .var v) : substEach f eqs = eqs := by
  refine (List.map_congr_left fun e he => ?_).trans (List.map_id eqs)
  exact Prod.ext (Ty.subst_eq_self (h e he).1 fun v hv => hf e he v (.inl hv))
    (Ty.subst_eq_self (h e he).2 fun v hv => hf e he v (.inr hv))

theorem applyAll_eq_substEach (h : WellFormedEquations eqs) (s : Subst) : applyAll s eqs = substEach s.toFun eqs :=
  List.map_congr_left fun e he => Prod.ext (Ty.apply_eq_subst (h e he).1 s) (Ty.apply_eq_subst (h e he).2 s)

end Equations

/-- Whatever equations follow, the search comes to them with one substitution. -/
structure Settles (eqs : List (Ty × Ty)) (f : Nat → Ty) : Prop where
  wellFormed : ∀ v, (f v).WellFormed
  leads : ∀ {k : Nat} {P : List Subst → Prop} {s₀ : Subst} {rest : List (Ty × Ty)}, s₀.WellFormed →
    WellFormedEquations rest → (∀ s : Subst, s.WellFormed → (∀ v, s.toFun v = (s₀.toFun v).subst f) →
      Adds k [⟨s, equations (substEach f rest)⟩] P) → Adds k [⟨s₀, equations (eqs ++ rest)⟩] P

/-- Whatever equations follow, the search does not come to them. -/
def Refutes (eqs : List (Ty × Ty)) : Prop := ∀ (k : Nat) (s₀ : Subst) (rest : List (Ty × Ty)), s₀.WellFormed →
  WellFormedEquations rest → Adds k [⟨s₀, equations (eqs ++ rest)⟩] fun ss => ss = []

section Settles
variable {f g : Nat → Ty} {eqs eqs' : List (Ty × Ty)} {l r : Ty}

theorem settles_nil : Settles [] .var where
  wellFormed := .var
  leads {k P s₀ rest} hs₀ hrest h := by
    have hsame : substEach .var rest = rest := substEach_eq_self hrest fun _ _ _ _ => rfl
    have hadds := h s₀ hs₀ fun v => (Ty.subst_eq_self (hs₀.toFun v) fun _ _ => rfl).symm
    rwa [hsame] at hadds

theorem Settles.append (h : Settles eqs f) (heqs' : WellFormedEquations eqs') (h' : Settles (substEach f eqs') g) :
    Settles (eqs ++ eqs') fun v => (f v).subst g where
  wellFormed v := (h.wellFormed v).subst fun w _ => h'.wellFormed w
  leads {k P s₀ rest} hs₀ hrest hadds := by
    rw [List.append_assoc]
    refine h.leads hs₀ (heqs'.append hrest) fun s hs hsv => ?_
    rw [substEach_append]
    refine h'.leads hs (hrest.substEach h.wellFormed) fun s' hs' hsv' => ?_
    rw [substEach_substEach hrest h.wellFormed h'.wellFormed]
    refine hadds s' hs' fun v => ?_
    rw [hsv', hsv, Ty.subst_subst (hs₀.toFun v) (fun w _ => h.wellFormed w) fun w _ => h'.wellFormed w]

theorem Refutes.append (h : Refutes eqs) (heqs' : WellFormedEquations eqs') : Refutes (eqs ++ eqs') := by
  intro k s₀ rest hs₀ hrest
  rw [List.append_assoc]
  exact h k s₀ _ hs₀ (heqs'.append hrest)

theorem Settles.append_refutes (h : Settles eqs f) (heqs' : WellFormedEquations eqs')
    (h' : Refutes (substEach f eqs')) : Refutes (eqs ++ eqs') := by
  intro k s₀ rest hs₀ hrest
  rw [List.append_assoc]
  refine h.leads hs₀ (heqs'.append hrest) fun s hs _ => ?_
  rw [substEach_append]
  exact h' k s _ hs (hrest.substEach h.wellFormed)

theorem takeSolvable_equations (l r : Ty) (rest : List (Ty × Ty)) :
    Constraint.takeSolvable (equations ([(l, r)] ++ rest)) = some (.eq l r, equations rest) :=
  Constraint.takeSolvable_cons rfl

theorem settles_singleton {su : Subst} (h : (l.unify r).substs = [su]) (hsu : su.WellFormed) :
    Settles [(l, r)] su.toFun where
  wellFormed := hsu.toFun
  leads {k P s₀ rest} hs₀ hrest hadds := by
    refine adds_eq (takeSolvable_equations l r rest) ?_
    rw [children_equations, h, List.map_singleton, applyAll_eq_substEach hrest]
    refine hadds _ (hsu.compose hs₀) fun v => ?_
    rw [Subst.toFun_compose, Ty.apply_eq_subst (hs₀.toFun v)]

theorem refutes_singleton (h : (l.unify r).substs = []) : Refutes [(l, r)] := by
  intro k s₀ rest _ _
  refine adds_eq (takeSolvable_equations l r rest) ?_
  rw [children_equations, h]
  exact adds_nil rfl

end Settles

/-! ## The verdict on a part -/

/-- A well-formed type with variables that were issued from `k` on and before `k'`. -/
def Ty.Between (k k' : Nat) (t : Ty) : Prop := t.WellFormed ∧ ∀ v ∈ t.free, k ≤ v ∧ v < k'

theorem Ty.Between.mono {k k' j j' : Nat} {t : Ty} (h : t.Between k k') (hj : j ≤ k) (hj' : k' ≤ j') : t.Between j j' :=
  ⟨h.1, fun v hv => by
    have := h.2 v hv
    omega⟩

theorem Ty.between_var {k k' v : Nat} (h : k ≤ v) (h' : v < k') : (Ty.var v).Between k k' :=
  ⟨.var v, fun w hw => by
    obtain rfl := Ty.mem_free_var.1 hw
    exact ⟨h, h'⟩⟩

theorem Ty.between_prim {k k' : Nat} (p : Prim) : (Ty.prim p).Between k k' := ⟨.prim p, by simp⟩

/-- The equations over the variables from `k` to `k'` make the types primitive, in one way, or have no solution. -/
structure Verdict (k k' : Nat) (eqs : List (Ty × Ty)) (ts : List Ty) (result : Option (List Prim)) : Prop where
  le : k ≤ k'
  equations : ∀ e ∈ eqs, e.1.Between k k' ∧ e.2.Between k k'
  types : ∀ t ∈ ts, t.Between k k'
  settles : ∀ ps, result = some ps → ∃ f, Settles eqs f ∧ (∀ v, v < k ∨ k' ≤ v → f v = .var v) ∧
    ts.map (Ty.subst f) = ps.map .prim
  refutes : result = none → Refutes eqs

section Verdict
variable {k k₁ k₂ : Nat} {eqs eqs' : List (Ty × Ty)} {ts ts' : List Ty} {os os' : Option (List Prim)}

theorem Verdict.wellFormed (h : Verdict k k₁ eqs ts os) : WellFormedEquations eqs :=
  fun e he => ⟨(h.equations e he).1.1, (h.equations e he).2.1⟩

/-- A substitution for earlier variables does not change the equations. -/
theorem Verdict.substEach_eq_self (h : Verdict k k₁ eqs ts os) {f : Nat → Ty} (hf : ∀ v, k ≤ v → f v = .var v) :
    substEach f eqs = eqs :=
  NixTyping.substEach_eq_self h.wellFormed fun e he v hv => hf v (by
    rcases hv with hv | hv
    · exact ((h.equations e he).1.2 v hv).1
    · exact ((h.equations e he).2.2 v hv).1)

theorem verdict_prim (k : Nat) (p : Prim) : Verdict k k [] [.prim p] (some [p]) where
  le := Nat.le_refl k
  equations := by simp
  types := by
    intro t ht
    obtain rfl := List.mem_singleton.1 ht
    exact Ty.between_prim p
  settles := by
    intro ps hps
    cases hps
    exact ⟨.var, settles_nil, fun _ _ => rfl, rfl⟩
  refutes h := nomatch h

/-- One part after the other, with variables of its own. -/
theorem Verdict.append (h : Verdict k k₁ eqs ts os) (h' : Verdict k₁ k₂ eqs' ts' os') :
    Verdict k k₂ (eqs ++ eqs') (ts ++ ts') (do return (← os) ++ (← os')) where
  le := h.le.trans h'.le
  equations e he := by
    rcases List.mem_append.1 he with he | he
    · exact ⟨(h.equations e he).1.mono le_rfl h'.le, (h.equations e he).2.mono le_rfl h'.le⟩
    · exact ⟨(h'.equations e he).1.mono h.le le_rfl, (h'.equations e he).2.mono h.le le_rfl⟩
  types t ht := (List.mem_append.1 ht).elim (fun ht => (h.types t ht).mono le_rfl h'.le)
    fun ht => (h'.types t ht).mono h.le le_rfl
  settles ps hps := by
    obtain ⟨qs, rfl, qs', rfl, rfl⟩ : ∃ qs, os = some qs ∧ ∃ qs', os' = some qs' ∧ qs ++ qs' = ps := by
      simpa [Option.bind_eq_some_iff] using hps
    obtain ⟨f, hf, hkeeps, hts⟩ := h.settles qs rfl
    obtain ⟨g, hg, hkeeps', hts'⟩ := h'.settles qs' rfl
    have hsame : substEach f eqs' = eqs' := h'.substEach_eq_self fun v hv => hkeeps v (.inr hv)
    have hcompose : ∀ t : Ty, t.WellFormed → t.subst (fun v => (f v).subst g) = (t.subst f).subst g :=
      fun t ht => (Ty.subst_subst ht (fun v _ => hf.wellFormed v) fun v _ => hg.wellFormed v).symm
    refine ⟨_, hf.append h'.wellFormed (by rwa [hsame]), fun v hv => ?_, ?_⟩
    · have := h.le
      have := h'.le
      rw [hkeeps v (by omega)]
      exact hkeeps' v (by omega)
    · have hfirst : ts.map (Ty.subst fun v => (f v).subst g) = qs.map .prim := by
        calc ts.map (Ty.subst fun v => (f v).subst g) = (ts.map (Ty.subst f)).map (Ty.subst g) := by
              rw [List.map_map]
              exact List.map_congr_left fun t ht => hcompose t (h.types t ht).1
          _ = qs.map .prim := by
              rw [hts, List.map_map]
              rfl
      have hsecond : ts'.map (Ty.subst fun v => (f v).subst g) = qs'.map .prim := by
        rw [← hts']
        refine List.map_congr_left fun t ht => ?_
        rw [hcompose t (h'.types t ht).1, Ty.subst_eq_self (h'.types t ht).1 fun v hv =>
          hkeeps v (.inr ((h'.types t ht).2 v hv).1)]
      rw [List.map_append, List.map_append, hfirst, hsecond]
  refutes hnone := by
    cases os with
    | none => exact (h.refutes rfl).append h'.wellFormed
    | some qs =>
      obtain ⟨f, hf, hkeeps, -⟩ := h.settles qs rfl
      have hsame : substEach f eqs' = eqs' := h'.substEach_eq_self fun v hv => hkeeps v (.inr hv)
      cases os' with
      | none => exact hf.append_refutes h'.wellFormed (by rw [hsame]; exact h'.refutes rfl)
      | some qs' => cases hnone

/-- A part with one equation more. What it comes to depends on the types found so far. -/
theorem Verdict.equation {l r : Ty} {result : List Prim → Option (List Prim)} (h : Verdict k k₁ eqs ts os)
    (hk : k₁ ≤ k₂) (hl : l.Between k k₂) (hr : r.Between k k₂) (hts' : ∀ t ∈ ts', t.Between k k₂)
    (hsettles : ∀ f ps qs,
      (∀ v, v < k ∨ k₁ ≤ v → f v = .var v) → ts.map (Ty.subst f) = ps.map .prim → result ps = some qs →
      ∃ su, ((l.subst f).unify (r.subst f)).substs = [su] ∧ su.WellFormed ∧
        (∀ v, v < k ∨ k₂ ≤ v → su.toFun v = .var v) ∧
        ts'.map (fun t => (t.subst f).subst su.toFun) = qs.map .prim)
    (hrefutes : ∀ f ps, (∀ v, v < k ∨ k₁ ≤ v → f v = .var v) → ts.map (Ty.subst f) = ps.map .prim → result ps = none →
      ((l.subst f).unify (r.subst f)).substs = []) : Verdict k k₂ (eqs ++ [(l, r)]) ts' (os.bind result) := by
  have heqs : WellFormedEquations [(l, r)] := by
    intro e he
    obtain rfl := List.mem_singleton.1 he
    exact ⟨hl.1, hr.1⟩
  refine ⟨h.le.trans hk, fun e he => ?_, hts', fun qs hqs => ?_, fun hnone => ?_⟩
  · rcases List.mem_append.1 he with he | he
    · exact ⟨(h.equations e he).1.mono le_rfl hk, (h.equations e he).2.mono le_rfl hk⟩
    · obtain rfl := List.mem_singleton.1 he
      exact ⟨hl, hr⟩
  · obtain ⟨ps, rfl, hps⟩ := Option.bind_eq_some_iff.1 hqs
    obtain ⟨f, hf, hkeeps, hts⟩ := h.settles ps rfl
    obtain ⟨su, hsu, hwell, hkeeps', hqs⟩ := hsettles f ps qs hkeeps hts hps
    refine ⟨_, hf.append heqs (settles_singleton hsu hwell), fun v hv => ?_, ?_⟩
    · rw [hkeeps v (by omega)]
      exact hkeeps' v hv
    · rw [← hqs]
      refine List.map_congr_left fun t ht => ?_
      exact (Ty.subst_subst (hts' t ht).1 (fun v _ => hf.wellFormed v) fun v _ => hwell.toFun v).symm
  · cases os with
    | none => exact (h.refutes rfl).append heqs
    | some ps =>
      obtain ⟨f, hf, hkeeps, hts⟩ := h.settles ps rfl
      exact hf.append_refutes heqs (refutes_singleton (hrefutes f ps hkeeps hts hnone))

/-- An operator at the types of its operands, with a variable for its result. -/
theorem Verdict.operator {sig : Ty} {m : Nat} {rows : List (List Prim × Prim)} (h : Verdict k k₁ eqs ts os)
    (hsig : sig.Tabulates m rows) (hts : ts.length = m) (hm : m ≠ 0) :
    Verdict k (k₁ + 1) (eqs ++ [(.fns ts (.var k₁), sig)]) [.var k₁]
      (os.bind fun ps => (sig.resultAt ps).map fun p => [p]) := by
  have hle := h.le
  have hvar : (Ty.var k₁).Between k (k₁ + 1) := Ty.between_var hle (Nat.lt_succ_self _)
  have happlied : (Ty.fns ts (.var k₁)).Between k (k₁ + 1) := by
    refine ⟨Ty.wellFormed_fns (fun t ht => (h.types t ht).1) (.var _), fun v hv => ?_⟩
    rcases Ty.mem_free_fns.1 hv with ⟨t, ht, hv⟩ | hv
    · have := (h.types t ht).2 v hv
      omega
    · exact hvar.2 v hv
  -- the operands are known when the operator is reached
  have hunify : ∀ f ps, (∀ v, v < k ∨ k₁ ≤ v → f v = .var v) → ts.map (Ty.subst f) = ps.map .prim →
      (((Ty.fns ts (.var k₁)).subst f).unify (sig.subst f)).substs =
        (sig.resultAt ps).toList.map fun p => Subst.single k₁ (.prim p) := by
    intro f ps hf hps
    have hlength : ps.length = m := by rw [← hts, ← List.length_map (f := Ty.subst f), hps, List.length_map]
    rw [Ty.subst_fns, hps, Ty.subst_var, hf k₁ (by omega),
      Ty.subst_eq_self hsig.wellFormed fun v hv => absurd hv (hsig.closed v)]
    exact hsig.substs_unify hlength hm k₁
  refine h.equation (Nat.le_succ _) happlied ⟨hsig.wellFormed, fun v hv => absurd hv (hsig.closed v)⟩
    (by simpa using hvar)
    (fun f ps qs hf hps hqs => ?_) fun f ps hf hps hnone => ?_
  · obtain ⟨p, hp, rfl⟩ := Option.map_eq_some_iff.1 hqs
    refine ⟨.single k₁ (.prim p), by rw [hunify f ps hf hps, hp]; rfl, fun v t hv => ?_, fun v hv => ?_, ?_⟩
    · obtain ⟨-, rfl⟩ := Subst.eq_of_get?_single hv
      exact .prim p
    · refine Subst.toFun_of_none ?_
      rw [Subst.get?_single, if_neg (by omega)]
    · simp [hf k₁ (by omega), Subst.toFun_single]
  · rw [hunify f ps hf hps, Option.map_eq_none_iff.1 hnone]
    rfl

/-- Two types that must be the same. -/
theorem Verdict.require {l r : Ty} {a b : List Prim → Prim} (h : Verdict k k₁ eqs ts os) (hl : l.Between k k₁)
    (hr : r.Between k k₁) (hsides : ∀ f ps, ts.map (Ty.subst f) = ps.map .prim →
      l.subst f = .prim (a ps) ∧ r.subst f = .prim (b ps)) :
    Verdict k k₁ (eqs ++ [(l, r)]) ts (os.bind fun ps => if a ps = b ps then some ps else none) := by
  refine h.equation le_rfl hl hr h.types (fun f ps qs hf hps hqs => ?_) fun f ps hf hps hnone => ?_
  · obtain ⟨heq, rfl⟩ : a ps = b ps ∧ ps = qs := by simpa using hqs
    obtain ⟨hl, hr⟩ := hsides f ps hps
    refine ⟨∅, by rw [hl, hr, substs_unify_prim, if_pos heq], Subst.all_empty, fun _ _ => rfl, ?_⟩
    rw [← hps]
    refine List.map_congr_left fun t ht => ?_
    have hmem : t.subst f ∈ ps.map .prim := hps ▸ List.mem_map_of_mem ht
    obtain ⟨p, -, hp⟩ := List.mem_map.1 hmem
    rw [← hp]
    rfl
  · have hne : a ps ≠ b ps := by simpa using hnone
    obtain ⟨hl, hr⟩ := hsides f ps hps
    rw [hl, hr, substs_unify_prim, if_neg hne]

/-- The type at a place of the list, when all of them are known. -/
theorem subst_eq_of_map {f : Nat → Ty} {ps : List Prim} (h : ts.map (Ty.subst f) = ps.map .prim) {i : Nat} {t : Ty}
    (ht : ts[i]? = some t) : t.subst f = .prim (ps.getD i .null) := by
  have hi : (ps.map Ty.prim)[i]? = some (t.subst f) := by rw [← h, List.getElem?_map, ht]; rfl
  rw [List.getElem?_map] at hi
  obtain ⟨p, hp, heq⟩ := Option.map_eq_some_iff.1 hi
  rw [← heq, List.getD_eq_getElem?_getD, hp]
  rfl

/-- The same equations for types that are known with those before. -/
theorem Verdict.retype {g : List Prim → List Prim} (h : Verdict k k₁ eqs ts os) (hk : k₁ ≤ k₂)
    (hts' : ∀ t ∈ ts', t.Between k k₂)
    (hg : ∀ f ps, ts.map (Ty.subst f) = ps.map .prim → ts'.map (Ty.subst f) = (g ps).map .prim) :
    Verdict k k₂ eqs ts' (os.map g) where
  le := h.le.trans hk
  equations e he := ⟨(h.equations e he).1.mono le_rfl hk, (h.equations e he).2.mono le_rfl hk⟩
  types := hts'
  settles qs hqs := by
    obtain ⟨ps, rfl, rfl⟩ := Option.map_eq_some_iff.1 hqs
    obtain ⟨f, hf, hkeeps, hts⟩ := h.settles ps rfl
    exact ⟨f, hf, fun v hv => hkeeps v (by omega), hg f ps hts⟩
  refutes hnone := h.refutes (Option.map_eq_none_iff.1 hnone)

end Verdict

/-! ## The walk -/

/-- A judgment that assumes nothing and has only equations. -/
def Judgment.ofEquations (eqs : List (Ty × Ty)) (t : Ty) : Judgment := { constraints := equations eqs, ty := t }

section Walk
variable {env : Env} {e : Expr} {depth : Nat} {s s' : State}

namespace Judgment
variable {eqs eqs₁ eqs₂ : List (Ty × Ty)} {t t₁ t₂ result : Ty}

theorem eq_ofEquations {j : Judgment} (h : j.assumptions.entries = []) (hcs : j.constraints = equations eqs) :
    j = ofEquations eqs j.ty := by
  obtain ⟨⟨entries⟩, cs, t⟩ := j
  cases h
  cases hcs
  rfl

theorem unary_ofEquations (op : UnaryOp) :
    unary op (ofEquations eqs t) result = ofEquations (eqs ++ [(.fns [t] result, op.signature)]) result :=
  eq_ofEquations rfl (by simp [unary, merged, require, ofEquations, equations, Ty.fns])

theorem binary_ofEquations {op : BinOp} {sig : Ty} (h : op.signature = some sig) :
    binary op (ofEquations eqs t) (ofEquations eqs₁ t₁) result =
      ofEquations (eqs ++ eqs₁ ++ [(.fns [t, t₁] result, sig)]) result := by
  unfold binary
  rw [h]
  exact eq_ofEquations rfl (by simp [merged, require, ofEquations, equations, Ty.binary, Ty.fns])

theorem compare_ofEquations {op : BinOp} (h : op.signature = none) :
    binary op (ofEquations eqs t) (ofEquations eqs₁ t₁) result = ofEquations (eqs ++ eqs₁) .bool := by
  unfold binary
  rw [h]
  exact eq_ofEquations rfl (by simp [merged, ofEquations, equations])

theorem ifElse_ofEquations : ifElse (ofEquations eqs t) (ofEquations eqs₁ t₁) (ofEquations eqs₂ t₂) =
    ofEquations (eqs ++ (eqs₁ ++ eqs₂) ++ [(t, .bool)] ++ [(t₁, t₂)]) t₁ :=
  eq_ofEquations rfl (by simp [ifElse, merged, require, ofEquations, equations])

theorem assertIn_ofEquations : assertIn (ofEquations eqs t) (ofEquations eqs₁ t₁) =
    ofEquations (eqs ++ eqs₁ ++ [(t, .bool)]) t₁ :=
  eq_ofEquations rfl (by simp [assertIn, merged, require, ofEquations, equations])

end Judgment

/-- A run that ends with equations, which come to a primitive type or to nothing. -/
def Decides (m : Judging Judgment) (s : State) (result : Option Prim) : Prop :=
  ∃ eqs t s', Runs m s (.ofEquations eqs t) s' ∧ Verdict s.next s'.next eqs [t] (result.map fun p => [p])

theorem Decides.of_runs {m : Judging Judgment} {J : Judgment} {eqs : List (Ty × Ty)} {t : Ty}
    {os : Option (List Prim)} {p? : Option Prim} (hrun : Runs m s J s') (hJ : J = .ofEquations eqs t)
    (hverdict : Verdict s.next s'.next eqs [t] os) (hos : os = p?.map fun p => [p]) : Decides m s p? :=
  ⟨eqs, t, s', hJ ▸ hrun, hos ▸ hverdict⟩

/-- To record a judgment issues no variable. -/
theorem Decides.recorded {m : Judging Judgment} {result : Option Prim} (ctx : Context) (h : Decides m s result) :
    Decides (do let j ← m; record fun _ => .judged ctx e j; return j) s result := by
  obtain ⟨eqs, t, s', hrun, hverdict⟩ := h
  exact ⟨eqs, t, { s' with history := .judged ctx e (.ofEquations eqs t) :: s'.history },
    hrun.bind ((runs_modify _ s').bind (runs_pure _ _)), hverdict⟩

theorem decides_pure (p : Prim) (s : State) : Decides (pure (.ofTy (.prim p))) s (some p) :=
  ⟨[], .prim p, s, runs_pure _ s, verdict_prim _ p⟩

section Forms
variable {run : Runner} {ctx : Context}

theorem decides_unary (op : UnaryOp) {p? : Option Prim} (h : Decides (run ctx (.expr e)) s p?) :
    Decides (expression env run ctx (.unary op e)) s (do op.signature.resultAt [← p?]) := by
  obtain ⟨eqs, t, s₁, hrun, hverdict⟩ := h
  obtain ⟨rows, hsig⟩ := op.tabulates_signature
  refine .of_runs (hrun.bind ((runs_freshTy s₁).bind (runs_pure _ _))) (Judgment.unary_ofEquations op)
    (hverdict.operator hsig rfl one_ne_zero) ?_
  cases p? <;> rfl

theorem decides_binary {op : BinOp} (hop : op ≠ .concat ∧ op ≠ .update) {l r : Expr} {p? q? : Option Prim}
    (hl : Decides (run ctx (.expr l)) s p?) (hr : ∀ s, Decides (run ctx (.expr r)) s q?) :
    Decides (expression env run ctx (.binary op l r)) s (do op.resultAt (← p?) (← q?)) := by
  obtain ⟨eqs, t, s₁, hrun, hverdict⟩ := hl
  obtain ⟨eqs₁, t₁, s₂, hrun₁, hverdict₁⟩ := hr s₁
  have hboth := hverdict.append hverdict₁
  have hruns : Runs (expression env run ctx (.binary op l r)) s
      (.binary op (.ofEquations eqs t) (.ofEquations eqs₁ t₁) (.var s₂.next)) { s₂ with next := s₂.next + 1 } :=
    hrun.bind (hrun₁.bind ((runs_freshTy s₂).bind (runs_pure _ _)))
  cases hsig : op.signature with
  | none =>
    have hresult : Verdict s.next (s₂.next + 1) (eqs ++ eqs₁) [.bool] _ :=
      hboth.retype (g := fun _ => [.bool]) (Nat.le_succ _) (by simpa using Ty.between_prim .bool) fun _ _ _ => rfl
    refine .of_runs hruns (Judgment.compare_ofEquations hsig) hresult ?_
    cases p? <;> cases q? <;> simp [BinOp.resultAt, hsig]
  | some sig =>
    obtain ⟨rows, htable⟩ := op.tabulates_signature hop hsig
    refine .of_runs hruns (Judgment.binary_ofEquations hsig) (hboth.operator htable rfl two_ne_zero) ?_
    cases p? <;> cases q? <;> simp [BinOp.resultAt, hsig]

theorem decides_ifElse {c y n : Expr} {p? q? r? : Option Prim} (hc : Decides (run ctx (.expr c)) s p?)
    (hy : ∀ s, Decides (run ctx (.expr y)) s q?) (hn : ∀ s, Decides (run ctx (.expr n)) s r?) :
    Decides (expression env run ctx (.ifElse c y n)) s (do
      let cond ← p?
      let yes ← q?
      let no ← r?
      if cond = .bool ∧ yes = no then some yes else none) := by
  obtain ⟨eqs, t, s₁, hrun, hverdict⟩ := hc
  obtain ⟨eqs₁, t₁, s₂, hrun₁, hverdict₁⟩ := hy s₁
  obtain ⟨eqs₂, t₂, s₃, hrun₂, hverdict₂⟩ := hn s₂
  have hall := hverdict.append (hverdict₁.append hverdict₂)
  have hcond :=
    hall.require (a := (·.getD 0 .null)) (b := fun _ => .bool) (hall.types t (by simp)) (Ty.between_prim .bool)
    fun f ps hps => ⟨subst_eq_of_map hps rfl, rfl⟩
  have hsame := hcond.require (a := (·.getD 1 .null)) (b := (·.getD 2 .null)) (hall.types t₁ (by simp))
    (hall.types t₂ (by simp)) fun f ps hps => ⟨subst_eq_of_map hps rfl, subst_eq_of_map hps rfl⟩
  have hresult : Verdict s.next s₃.next _ [t₁] _ := hsame.retype (g := fun ps => [ps.getD 1 .null]) le_rfl
    (fun u hu => hall.types u (by simp_all)) fun f ps hps => by simp [subst_eq_of_map hps (i := 1) rfl]
  refine .of_runs (hrun.bind (hrun₁.bind (hrun₂.bind (runs_pure _ _)))) Judgment.ifElse_ofEquations hresult ?_
  cases p? <;> cases q? <;> cases r? <;> simp
  split <;> simp_all

theorem decides_assertIn {c b : Expr} {p? q? : Option Prim} (hc : Decides (run ctx (.expr c)) s p?)
    (hb : ∀ s, Decides (run ctx (.expr b)) s q?) :
    Decides (expression env run ctx (.assertIn c b)) s (do
      let cond ← p?
      let body ← q?
      if cond = .bool then some body else none) := by
  obtain ⟨eqs, t, s₁, hrun, hverdict⟩ := hc
  obtain ⟨eqs₁, t₁, s₂, hrun₁, hverdict₁⟩ := hb s₁
  have hall := hverdict.append hverdict₁
  have hcond :=
    hall.require (a := (·.getD 0 .null)) (b := fun _ => .bool) (hall.types t (by simp)) (Ty.between_prim .bool)
    fun f ps hps => ⟨subst_eq_of_map hps rfl, rfl⟩
  have hresult : Verdict s.next s₂.next _ [t₁] _ := hcond.retype (g := fun ps => [ps.getD 1 .null]) le_rfl
    (fun u hu => hall.types u (by simp_all)) fun f ps hps => by simp [subst_eq_of_map hps (i := 1) rfl]
  refine .of_runs (hrun.bind (hrun₁.bind (runs_pure _ _))) Judgment.assertIn_ofEquations hresult ?_
  cases p? <;> cases q? <;> simp

end Forms

end Walk

/-- The walk of an operator expression yields equations, and these come to its reference type. -/
theorem Expr.Operational.decides {e : Expr} {depth : Nat} (h : e.Operational) (env : Env)
    (hdepth : e.all.length ≤ depth) (s : State) : Decides (runTo env depth {} (.expr e)) s e.tableType := by
  induction depth generalizing e s with
  | zero =>
    rw [Expr.length_all] at hdepth
    omega
  | succ depth ih =>
    rw [Expr.length_all] at hdepth
    refine Decides.recorded _ ?_
    cases h with
    | literal id span l =>
      show Decides (pure (.ofTy l.ty)) s _
      rw [l.ty_eq]
      exact decides_pure _ s
    | @constant id span x known =>
      obtain ⟨p, htype, hconstant⟩ := exists_constantType known
      show Decides (reference env (runTo env depth) {} x) s (constantType x)
      unfold reference
      rw [show ({} : Context).lexical? x = none from rfl, hconstant, htype]
      exact decides_pure _ s
    | @unary id span op e he =>
      simp only [Expr.parts, Expr.form, Form.parts, List.map_cons, List.map_nil, List.sum_cons, List.sum_nil] at hdepth
      exact decides_unary op (ih he (by omega) s)
    | @binary id span op primitive l r hl hr =>
      simp only [Expr.parts, Expr.form, Form.parts, List.map_cons, List.map_nil, List.sum_cons, List.sum_nil] at hdepth
      exact decides_binary primitive (ih hl (by omega) s) (ih hr (by omega))
    | @ifElse id span c y n hc hy hn =>
      simp only [Expr.parts, Expr.form, Form.parts, List.map_cons, List.map_nil, List.sum_cons, List.sum_nil] at hdepth
      exact decides_ifElse (ih hc (by omega) s) (ih hy (by omega)) (ih hn (by omega))
    | @assertIn id span c b hc hb =>
      simp only [Expr.parts, Expr.form, Form.parts, List.map_cons, List.map_nil, List.sum_cons, List.sum_nil] at hdepth
      exact decides_assertIn (ih hc (by omega) s) (ih hb (by omega))

theorem Ty.WellFormed.viable {t : Ty} (h : t.WellFormed) : t.Viable := by
  induction h with
  | var v => exact .var v
  | prim p => exact .prim p
  | list _ ih => exact .list ih
  | fn _ _ ihp ihb => exact .fn ihp ihb
  | record _ ih => exact .record ih
  | overload _ _ _ many ih => exact .overload (List.ne_nil_of_length_pos (by omega)) ih

/-- An operator expression has its reference type in every environment, and no other. Where it has none there are type
errors. -/
theorem operators_typed {e : Expr} (h : e.Operational) (env : Env) :
    (∀ p, e.tableType = some p → (e.infer env none).result = .ok [⟨[], .prim p⟩]) ∧
    (e.tableType = none → ∃ errors, (e.infer env none).result = .error (.typeErrors errors)) := by
  have hdepth : e.all.length ≤ depthOf e := by
    unfold depthOf
    omega
  obtain ⟨eqs, t, s, hrun, hverdict⟩ := h.decides env hdepth {}
  have hjudge : e.judge env = .ok (.ofEquations eqs t, s) := hrun
  have hinfer : (e.infer env none).result = schemesOf t (solve (equations eqs) s.next none) := by
    have hconstraints :
        (Judgment.ofEquations eqs t).constraints ++ env.instances (Judgment.ofEquations eqs t).assumptions =
        equations eqs := List.append_nil _
    unfold Expr.infer
    rw [hjudge]
    dsimp only
    rw [hconstraints]
    rfl
  have hwell : WellFormedEquations [] := by simp [WellFormedEquations]
  rw [hinfer]
  constructor
  · intro p hp
    obtain ⟨f, hf, -, ht⟩ := hverdict.settles [p] (by rw [hp]; rfl)
    have hadds : Adds s.next [⟨∅, equations (eqs ++ [])⟩] fun ss => ∃ S : Subst, ss = [S] ∧ ∀ v, S.toFun v = f v :=
      hf.leads Subst.all_empty hwell fun S hS hSf => adds_leaf rfl ⟨S, rfl, hSf⟩
    rw [List.append_nil] at hadds
    obtain ⟨S, hS, hSf⟩ := solve_of_adds hadds
    have htype : t.apply S = .prim p := by
      rw [Ty.apply_eq_subst (hverdict.types t (by simp)).1, Ty.subst_congr fun v _ => hSf v]
      simpa using ht
    have hsome : ¬ (solve (equations eqs) s.next none).substs.isEmpty = true := by
      rw [← Array.isEmpty_toList, hS]
      simp
    rw [schemesOf, if_neg hsome, hS, List.map_singleton, htype]
    rfl
  · intro hnone
    have hadds := hverdict.refutes (by rw [hnone]; rfl) s.next ∅ [] Subst.all_empty hwell
    rw [List.append_nil] at hadds
    have hempty := solve_of_adds hadds
    have htells : (solve (equations eqs) s.next none).Tells := by
      refine solve_tells (fun c hc => ?_) _ _
      obtain ⟨d, hd, rfl⟩ := List.mem_map.1 hc
      exact ⟨(hverdict.equations d hd).1.1.viable, (hverdict.equations d hd).2.1.viable⟩
    rcases schemesOf_of_tells htells t with ⟨schemes, -, hne, hall⟩ | ⟨errors, herrors, -⟩
    · rw [hempty] at hall
      cases hall
      exact absurd rfl hne
    · exact ⟨errors, herrors⟩

/-- The expression `if true && 1 + 2.5 < 3 then "a" + ./b else "c"`. -/
def guardedText : Expr :=
  .mk 11 none (.ifElse
    (.mk 6 none (.binary .and (.mk 0 none (.ref "true")) (.mk 5 none (.binary .less
      (.mk 3 none (.binary .add (.mk 1 none (.literal (.int 1))) (.mk 2 none (.literal (.float 2.5)))))
      (.mk 4 none (.literal (.int 3)))))))
    (.mk 9 none (.binary .add (.mk 7 none (.literal (.string "a"))) (.mk 8 none (.literal (.path "./b")))))
    (.mk 10 none (.literal (.string "c"))))

/-- An environment cannot give another type to a constant. -/
theorem operators_typed_guarded_text :
    guardedText.Operational ∧ guardedText.tableType = some .string ∧
    (guardedText.infer ⟨[("true", [.mono .int])]⟩ none).result = .ok [⟨[], .string⟩] := by
  have hoperational : guardedText.Operational := by
    refine .ifElse _ _
      (.binary _ _ (by decide) (.constant _ _ (by decide)) (.binary _ _ (by decide) ?_ (.literal _ _ _)))
      (.binary _ _ (by decide) (.literal _ _ _) (.literal _ _ _)) (.literal _ _ _)
    exact .binary _ _ (by decide) (.literal _ _ _) (.literal _ _ _)
  have htype : guardedText.tableType = some .string := rfl
  exact ⟨hoperational, htype, (operators_typed hoperational _).1 .string htype⟩

end NixTyping
