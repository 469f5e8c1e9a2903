import Mathlib
import NixTyping.Proofs.Substitution
import NixTyping.Proofs.RenamedParameter
/-!
# Only mentioned names matter

An environment is asked for a name during the walk, when unbound names are collected
and when instances are added. It is asked for references only, so two environments
that agree on these give the same inference (`infer_congr_mentioned`).

The comparison of the two runs is that of a renaming, which relates inference in two
environments (`Renaming.infer_rename`). A renaming of a parameter that no function has
changes nothing (`Renaming.exists_idle`), which leaves the two environments.
-/

namespace NixTyping

/-- Inference in two environments that agree on each reference in an expression, both in whether its name is bound
and in the schemes, is the same: its schemes or its failure, and what its search tells. -/
theorem infer_congr_mentioned {e : Expr} {env env' : Env}
    (h : ∀ p ∈ e.all, ∀ x, p.form = .ref x → env'.lookup x = env.lookup x) (limit : Option Nat) :
    e.infer env' limit = e.infer env limit := by
  obtain ⟨R, hsame, hidle⟩ := Renaming.exists_idle e
  have hsuits : e.Everywhere (R.comparison env env').Suits := by
    intro p hp
    refine Renaming.suits_comparison (hidle p hp).2 (h p hp) fun g hg hx => ?_
    -- no group binds the old name
    exact absurd (Form.names_of_group hg ▸ hx) (hidle p hp).1
  have hrename := Renaming.infer_rename hsuits limit
  rwa [hsame] at hrename

/-- The expression `with r; let f = y: [ y k ]; in f z`. -/
def openedArgument : Expr :=
  .mk 9 none (.withIn (.mk 0 none (.ref "r")) (.mk 8 none (.letIn
    ⟨[("f", .expr (.mk 4 none (.lambda (.name "y")
      (.mk 3 none (.list [.mk 1 none (.ref "y"), .mk 2 none (.ref "k")])))))], [], []⟩
    (.mk 7 none (.apply (.mk 5 none (.ref "f")) (.mk 6 none (.ref "z")))))))

/-- A record to open, and a number. -/
def withRecord : Env := ⟨[("k", [.mono .int]), ("r", [.mono (.record [("g", .bool), ("z", .string)] false)])]⟩

/-- The same with a name that is bound in the record too, which would come first. -/
def withRecordAndField : Env := withRecord.extend "g" [.mono .int, .mono .string]

theorem infer_congr_mentioned_opened_argument :
    (∀ p ∈ openedArgument.all, ∀ x, p.form = .ref x → withRecordAndField.lookup x = withRecord.lookup x) ∧
    withRecordAndField.lookup "g" ≠ withRecord.lookup "g" ∧
    (openedArgument.infer withRecordAndField none).result = .ok [⟨[], .list [.string, .int]⟩] := by
  have hnames : "g" ∉ openedArgument.all.flatMap fun p => p.form.names := by decide_cbv
  have hagree : ∀ p ∈ openedArgument.all, ∀ x, p.form = .ref x → withRecordAndField.lookup x = withRecord.lookup x := by
    intro p hp x hx
    have hne : x ≠ "g" := by
      rintro rfl
      exact hnames (List.mem_flatMap.2 ⟨p, hp, by simp [hx, Form.names]⟩)
    exact findKey_insertKey_of_ne hne _ _
  refine ⟨hagree, by decide_cbv, ?_⟩
  rw [infer_congr_mentioned hagree]
  cbv

end NixTyping
