import NixTyping.Proofs.VariableRenaming
/-!
# Laws of substitution

To apply a composite substitution is to apply its parts, the older one first, also where
overload sets are flattened, merged or collapse in between (`composition_in_turn`).

A set of variables is substituted as a set and a type as a type. The set of the variables
of a type stays that whatever is applied to both, and searching a type for a variable,
collecting its variables and listing them agree (`variables_substitute_alike`).

A scheme hides its quantified variables from the variables that a substitution binds, but
not from those that it brings in: what is brought in under a quantified name is captured.
So the free variables of the image of a scheme are those that are brought in less the
quantified ones (`free_scheme_apply`).
-/

namespace NixTyping

/-- Applying a composite is applying its parts in turn, and all types stay well formed. -/
theorem composition_in_turn {t : Ty} {newer older : Subst} (ht : t.WellFormed) (hn : newer.WellFormed)
    (ho : older.WellFormed) :
    t.apply (newer.compose older) = (t.apply older).apply newer ∧ (t.apply (newer.compose older)).WellFormed ∧
      ∀ v u, (newer.compose older).get? v = some u → u.WellFormed := by
  have hcompose : (newer.compose older).WellFormed := hn.compose ho
  exact ⟨Ty.apply_compose ht hn ho, hcompose.apply ht, hcompose⟩

/-- The older substitution mentions the variable that it binds, and puts an overload set into an overload set. After it
the set has three alternatives, and the newer substitution makes two of them one. -/
theorem composition_in_turn_merged :
    let t : Ty := .overload [.var 0, .list [.var 2]]
    let older : Subst := .single 0 (.overload [.list [.var 0], .list [.var 1]])
    let newer : Subst := .single 2 (.var 1)
    t.WellFormed ∧ newer.WellFormed ∧ older.WellFormed ∧
      t.apply older = .overload [.list [.var 0], .list [.var 1], .list [.var 2]] ∧
      t.apply (newer.compose older) = (t.apply older).apply newer ∧
      t.apply (newer.compose older) = .overload [.list [.var 0], .list [.var 1]] := by
  intro t older newer
  have ht : t.WellFormed := by simp [t, Ty.Single]
  have hn : newer.WellFormed := Subst.all_single (.var 1) 2
  have ho : older.WellFormed := Subst.all_single (by simp [Ty.Single]) 0
  exact ⟨ht, hn, ho, by decide, (composition_in_turn ht hn ho).1, by decide⟩

/-- The images of the variables of a type have the variables of its image. A variable occurs in the type exactly
if it is one of them, and exactly if it is listed; no variable is listed twice. -/
theorem variables_substitute_alike (t : Ty) (s : Subst) :
    s.image t.free = (t.apply s).free ∧ (∀ v, t.occurs v = true ↔ v ∈ t.free) ∧
      (∀ v, t.occurs v = true ↔ v ∈ t.varsInOrder) ∧ t.varsInOrder.Nodup := by
  have himage : s.image t.free = (t.apply s).free := VarSet.ext fun v => by
    rw [Subst.mem_image, Ty.mem_free_apply]
  exact ⟨himage, fun _ => Ty.occurs_iff, fun _ => Ty.occurs_iff.trans Ty.mem_varsInOrder.symm, t.nodup_varsInOrder⟩

/-- The overload sets are nested, which no rebuilt ones are. The image has one alternative less. -/
example :
    let t : Ty := .overload [.overload [.var 0, .list [.var 1]], .var 2]
    let s : Subst := .ofList [(0, .int), (2, .list [.var 1])]
    t.apply s = .overload [.int, .list [.var 1]] ∧ s.image t.free = .ofList [1] := by
  decide

/-- The free variables of the image of a scheme: those of the images of its own free variables,
less the captured ones. -/
theorem free_scheme_apply (σ : Scheme) (s : Subst) :
    (σ.apply s).free = (s.image σ.free).diff (.ofList σ.vars) ∧
      ((σ.apply s).free = s.image σ.free ↔ ∀ v ∈ s.image σ.free, v ∉ σ.vars) := by
  have hmem : ∀ v, v ∈ (σ.apply s).free ↔ v ∈ s.image σ.free ∧ v ∉ σ.vars := fun v => by
    rw [Scheme.mem_free_apply, Subst.mem_image]
  refine ⟨VarSet.ext fun v => ?_, fun h v hv => ?_, fun h => VarSet.ext fun v => ?_⟩
  · rw [hmem, VarSet.mem_diff, VarSet.mem_ofList]
  · rw [← h, hmem] at hv
    exact hv.2
  · rw [hmem]
    exact and_iff_left_of_imp (h v)

/-- The variable that is brought in for the free one is captured by the quantifier, and the scheme has become closed. -/
theorem quantifier_captures :
    let σ : Scheme := ⟨[0], .fn (.var 0) (.var 1)⟩
    let s : Subst := .single 1 (.var 0)
    σ.apply s = ⟨[0], .fn (.var 0) (.var 0)⟩ ∧ (σ.apply s).free = ∅ ∧ s.image σ.free = .ofList [0] := by
  decide

end NixTyping
