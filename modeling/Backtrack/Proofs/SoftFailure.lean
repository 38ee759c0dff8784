import Backtrack.Proofs.Adequacy
import Backtrack.Proofs.Lawful
import Backtrack.Proofs.Parts

/-!
# Soft failures are clean

A unit that fails softly leaves the context as it found it. A leaf of the grammar author's own may take items before it fails
softly; that does no harm where some unit around it goes back. It does where no unit goes back, so a grammar is clean as soon
as its exposed leaves are.
-/

namespace Backtrack

variable {σ : Type} [Context σ]

/-- On contexts of type `σ` the leaf leaves the context unchanged whenever it fails softly. -/
def Action.SoftlyClean (σ : Type) [Context σ] (f : Action (Outcome Value)) : Prop :=
  ∀ (s t : σ) (tr : Trace), f.run.run s = .ok ⟨.soft, t, tr⟩ → t = s

/-- Every exposed leaf of the job is clean; where candidates or turns are tried, nothing is exposed. -/
def Job.LeavesClean (σ : Type) [Context σ] (rules : Rules) : Job → Prop
  | .unit g => ∀ f, g.Exposed rules (.apply f) → f.SoftlyClean σ
  | .candidates _ _ | .turns _ => True

namespace Job.LeavesClean

variable {rules : Rules} {g h : Grammar}

theorem of_child (hg : LeavesClean σ rules (.unit g)) (hgh : g.ExposedChild rules h) : LeavesClean σ rules (.unit h) :=
  fun f hf => hg f (.of_child hgh hf)

end Job.LeavesClean

/-- A run that fails softly leaves the context as it found it, if the exposed leaves do. A part that was absent, and the only turn of a
repetition without a match, gave back what they took. -/
theorem Runs.eq_of_soft [LawfulContext σ] {rules : Rules} {job : Job} {s t : σ} {o : Outcome Value} {tr : Trace}
    (h : Runs rules job s o t tr) (hjob : job.LeavesClean σ rules) (ho : o = .soft) : t = s := by
  induction h with
  | pop h =>
    rcases Parser.run_pop_cases h with ⟨_, _, _, _, rfl, _⟩ | ⟨_, _, ht⟩
    · nomatch ho
    · exact ht
  | apply h => subst ho; exact hjob _ .refl _ _ _ h
  | seq_stop _ _ ih => exact ih (hjob.of_child .seq_head) ho
  | bind_stop _ _ ih => exact ih (hjob.of_child .bind_base) ho
  | bind_go _ _ hsoft => subst ho; nomatch hsoft
  | bind_back h₁ h₂ hr => exact LawfulContext.eq_of_restore (h₁.descends.trans h₂.descends) hr
  | choose_first _ hsoft => subst ho; nomatch hsoft
  | choose_second h₁ hr _ _ ih =>
    rw [ih (hjob.of_child .choose_second) ho]
    exact LawfulContext.eq_of_restore h₁.descends hr
  | oneOf _ ih => exact ih trivial ho
  | candidates_none => rfl
  | candidates_here _ hsoft => subst ho; nomatch hsoft
  | candidates_next h₁ hr _ _ ih =>
    rw [ih trivial ho]
    exact LawfulContext.eq_of_restore h₁.descends hr
  | rescue_missed h₁ hr _ _ ih | rescue_recover h₁ hr _ _ ih =>
    rw [ih (hjob.of_child .rescue_fallback) ho]
    exact LawfulContext.eq_of_restore h₁.descends hr
  | maybeThen_absent h₁ _ _ ih =>
    rw [ih (hjob.of_child .maybeThen_next) ho]
    cases h₁ with
    | maybe_absent h₁ hr => exact LawfulContext.eq_of_restore h₁.descends hr
  | oneOrMany_none h₁ =>
    cases h₁ with
    | turns_stop h₁ hr => exact LawfulContext.eq_of_restore h₁.descends hr
  | map_stop _ _ ih => exact ih (hjob.of_child .map) ho
  | transform_stop _ _ ih => exact ih (hjob.of_child .transform) ho
  | wrap _ ih => exact ih (hjob.of_child .wrap) ho
  | link hbody _ ih => exact ih (hjob.of_child (.link hbody)) ho
  | _ => nomatch ho

/-- A unit that is no leaf, and passes on no soft failure of its parts, gives back what they took. -/
theorem Grammar.Yields.eq_of_not_exposed [LawfulContext σ] {rules : Rules} {g : Grammar} {s t : σ} (h : g.Yields rules s .soft t)
    (hleaf : ∀ f, g ≠ .apply f) (hexposed : ∀ child, ¬ExposedChild rules g child) : t = s := by
  obtain ⟨_, hrun⟩ := yields_iff_runs.1 h
  refine hrun.eq_of_soft (fun f hf => ?_) rfl
  rcases Relation.ReflTransGen.cases_head hf with hf | ⟨child, hchild, -⟩
  · exact absurd hf (hleaf f)
  · exact absurd hchild (hexposed child)

/-- A grammar whose exposed leaves leave the context unchanged when they fail softly does so too, whatever its other leaves
take, for every definition of the rules and on every text, slice and cursor. -/
theorem soft_failure_leaves_context [LawfulContext σ] (rules : Rules) (g : Grammar)
    (hleaves : ∀ f, g.Exposed rules (.apply f) → f.SoftlyClean σ) {s t : σ} (h : g.Yields rules s .soft t) : t = s := by
  obtain ⟨tr, hrun⟩ := Grammar.yields_iff_runs.1 h
  exact hrun.eq_of_soft hleaves rfl

/-! ### A rule with careless leaves -/

/-- Takes an item, and then fails softly. -/
def carelessLeaf : Grammar :=
  .apply (.popFront fun _ => .done .soft)

/-- Looks at the first item, and then fails softly. -/
def carefulLeaf : Grammar :=
  .apply (.front fun _ => .done .soft)

/-- A rule that tries a careless leaf, then itself past one item, and then a careful leaf with a careless one behind it. -/
def carelessRules : Rules
  | 0 => some (.choose carelessLeaf (.choose (.bind (.pop fun _ => true) (fun _ => .link ⟨0, false⟩) [])
      (.seq carefulLeaf carelessLeaf (.done .unexpected))))
  | _ => none

/-- A leaf that only looks leaves the context as it was. -/
theorem carefulLeaf_softlyClean (σ : Type) [Context σ] : Action.SoftlyClean σ (.front fun _ => .done .soft) := by
  intro s t tr h
  cases h
  rfl

/-- Only the careful leaf is exposed in the rule. -/
theorem eq_of_exposed_carelessRules {f : Action (Outcome Value)}
    (h : (Grammar.link ⟨0, false⟩).Exposed carelessRules (.apply f)) : f = .front fun _ => .done .soft := by
  rcases Relation.ReflTransGen.cases_head h with hf | ⟨body, hbody, h⟩
  · nomatch hf
  cases hbody with
  | link hrule =>
  cases hrule
  rcases Relation.ReflTransGen.cases_head h with hf | ⟨second, hsecond, h⟩
  · nomatch hf
  cases hsecond
  rcases Relation.ReflTransGen.cases_head h with hf | ⟨second, hsecond, h⟩
  · nomatch hf
  cases hsecond
  rcases Relation.ReflTransGen.cases_head h with hf | ⟨head, hhead, h⟩
  · nomatch hf
  cases hhead
  rcases Relation.ReflTransGen.cases_head h with hf | ⟨part, hpart, h⟩
  · cases hf
    rfl
  · nomatch hpart

/-- The rule takes items in every alternative, fails softly, and gives back the whole text or all that the cursor had left. -/
theorem carelessRules_leave_context :
    (∃ t, (Grammar.link ⟨0, false⟩).Yields carelessRules (Text.ofString "ab") .soft t ∧ t = Text.ofString "ab") ∧
      ∃ c, (Grammar.link ⟨0, false⟩).Yields carelessRules (⟨#['x', 'a', 'b'], 1⟩ : Cursor Char) .soft c ∧
        c = ⟨#['x', 'a', 'b'], 1⟩ := by
  have hleaves : ∀ (σ : Type) [Context σ] f, (Grammar.link ⟨0, false⟩).Exposed carelessRules (.apply f) →
      f.SoftlyClean σ := by
    intro σ _ f hf
    rw [eq_of_exposed_carelessRules hf]
    exact carefulLeaf_softlyClean σ
  have htext : (Grammar.link ⟨0, false⟩).Yields carelessRules (Text.ofString "ab") .soft (Text.ofString "ab") :=
    Grammar.yields_of_run 13 (by decide +kernel)
  have hcursor : (Grammar.link ⟨0, false⟩).Yields carelessRules (⟨#['x', 'a', 'b'], 1⟩ : Cursor Char) .soft
      ⟨#['x', 'a', 'b'], 1⟩ := Grammar.yields_of_run 13 (by decide +kernel)
  exact ⟨⟨_, htext, soft_failure_leaves_context carelessRules _ (hleaves _) htext⟩,
    ⟨_, hcursor, soft_failure_leaves_context carelessRules _ (hleaves _) hcursor⟩⟩

end Backtrack
