import Backtrack.Proofs.Alternation
import Backtrack.Proofs.Building
import Backtrack.Proofs.Termination
import Backtrack.Vocabulary.Conversion

/-!
# Repetition by a rule

A repetition runs its unit in a loop and gives back what the last attempt took. A rule can say the same of itself: the unit and the
rule again, with the value in front of the list, or else the empty list. In the rule the commitment of the sequence never comes to
bear, since the rule does not fail softly, and the choice gives back what the loop does.
-/

namespace Backtrack

open LawfulContext (InBounds)

namespace Grammar

/-- The unit and then the rule, committed, with the value of the unit in front of the list of the rule. -/
def again (u : Grammar) (rule : Link) : Grammar :=
  .map Conversion.cons.apply (.seq u (.link rule) (.done .unexpected))

/-- The unit and then the rule, or the empty list, for which nothing is taken. -/
def unrolled (u : Grammar) (rule : Link) : Grammar :=
  .choose (u.again rule) (.always (.list []))

end Grammar

/-- The rule that the link leads to is declared as the repetition of the unit. -/
def Rules.Unrolls (rules : Rules) (u : Grammar) (l : Link) : Prop :=
  rules l.rule = some (.wrap .erased (u.unrolled l.handle))

/-- What holds of the owner of the rule holds of a handle. -/
theorem Rules.Unrolls.handle {rules : Rules} {u : Grammar} {l : Link} (h : rules.Unrolls u l) : rules.Unrolls u l.handle :=
  h

/-! ## The rule and the turns -/

section

variable {σ : Type} [Context σ] {rules : Rules} {u : Grammar} {l : Link} {s t : σ} {o : Outcome Value} {tr : Trace}

/-- The body of the rule does not fail softly. -/
theorem Runs.isSoft_unrolled (h : Runs rules (.unit (u.unrolled l)) s o t tr) : o.isSoft = false := by
  cases h with
  | choose_first _ ho => exact ho
  | choose_second _ _ hnone =>
    cases hnone with
    | apply hnone =>
      cases hnone
      rfl

/-- A link to the rule runs its body. -/
theorem runs_rule_iff (hrule : rules.Unrolls u l) :
    Runs rules (.unit (.link l)) s o t tr ↔ Runs rules (.unit (u.unrolled l.handle)) s o t tr := by
  constructor
  · intro h
    cases h with
    | link hbody h =>
      cases hbody.symm.trans hrule
      cases h with
      | wrap h => exact h
    | link_unbound hbody => nomatch hbody.symm.trans hrule
  · intro h
    exact .link hrule (.wrap h)

/-- The unit and then the rule end as the unit does, if it does not match; otherwise as the rule does from where the unit ended, with
one value more in the list. -/
theorem runs_again_iff (hrule : rules.Unrolls u l) :
    Runs rules (.unit (u.again l)) s o t tr ↔ Runs rules (.unit u) s o t tr ∧ o.isMatch = false ∨
      ∃ v s' o' tr₁ tr₂, Runs rules (.unit u) s (.matched v) s' tr₁ ∧ Runs rules (.unit (.link l)) s' o' t tr₂ ∧
        o'.map (fun w => Conversion.cons.apply (.pair v w)) = o ∧ tr₁ ++ tr₂ = tr := by
  constructor
  · intro h
    cases h with
    | map_match h =>
      cases h with
      | seq_stop _ ho => nomatch ho
      | seq_match h₁ h₂ => exact .inr ⟨_, _, _, _, _, h₁, h₂, rfl, rfl⟩
    | map_stop h ho =>
      cases h with
      | seq_stop h _ => exact .inl ⟨h, ho⟩
      | seq_match => nomatch ho
      | seq_hard h₁ h₂ => exact .inr ⟨_, _, _, _, _, h₁, h₂, rfl, rfl⟩
      | seq_escalate _ h₂ _ => nomatch ((runs_rule_iff hrule).1 h₂).isSoft_unrolled
  · rintro (⟨h, ho⟩ | ⟨v, s', o', tr₁, tr₂, h₁, h₂, rfl, rfl⟩)
    · exact .map_stop (.seq_stop h ho) ho
    · cases o' with
      | matched w => exact .map_match (.seq_match h₁ h₂)
      | hard failure => exact .map_stop (.seq_hard h₁ h₂) rfl
      | soft => nomatch ((runs_rule_iff hrule).1 h₂).isSoft_unrolled

/-- The unit and then the rule fail softly only where the unit does. -/
theorem runs_of_again_soft (hrule : rules.Unrolls u l) (h : Runs rules (.unit (u.again l)) s .soft t tr) :
    Runs rules (.unit u) s .soft t tr := by
  rcases (runs_again_iff hrule).1 h with ⟨h, -⟩ | ⟨_, _, _, _, _, _, hrest, ho, _⟩
  · exact h
  · obtain rfl := Outcome.map_eq_soft_iff.1 ho
    nomatch ((runs_rule_iff hrule).1 hrest).isSoft_unrolled

/-- The turns of a repetition end as the rule does. -/
theorem Runs.rule_of_turns {job : Job} (h : Runs rules job s o t tr) (hjob : job = .turns u) (hrule : rules.Unrolls u l) :
    ∃ tr', Runs rules (.unit (.link l)) s o t tr' := by
  induction h generalizing l with
  | turns_stop h hr =>
    cases hjob
    have hmiss := (runs_again_iff hrule.handle).2 (.inl ⟨h, rfl⟩)
    exact ⟨_, (runs_rule_iff hrule).2 (.choose_second hmiss hr (.apply rfl))⟩
  | turns_hard h =>
    cases hjob
    have hstop := (runs_again_iff hrule.handle).2 (.inl ⟨h, rfl⟩)
    exact ⟨_, (runs_rule_iff hrule).2 (.choose_first hstop rfl)⟩
  | turns_more h₁ _ _ ih | turns_more_hard h₁ _ _ ih =>
    cases hjob
    obtain ⟨_, h₂⟩ := ih rfl hrule.handle
    have hmore := (runs_again_iff hrule.handle).2 (.inr ⟨_, _, _, _, _, h₁, h₂, rfl, rfl⟩)
    exact ⟨_, (runs_rule_iff hrule).2 (.choose_first hmore rfl)⟩
  | _ => nomatch hjob

/-- The rule ends as the turns of a repetition do. -/
theorem Runs.turns_of_rule (h : Runs rules (.unit (.link l)) s o t tr) (hrule : rules.Unrolls u l) :
    ∃ tr', Runs rules (.turns u) s o t tr' := by
  -- the rule remembers the place before it comes back to itself, so what it does there is less
  induction hn : tr.toList.length using Nat.strong_induction_on generalizing l s o tr with
  | _ n ih =>
    rw [runs_rule_iff hrule] at h
    cases h with
    | choose_first h ho =>
      rcases (runs_again_iff hrule.handle).1 h with ⟨h, hstop⟩ | ⟨v, s', o', tr₁, tr₂, h₁, h₂, rfl, rfl⟩
      · rcases Outcome.isMatch_eq_false_iff.1 hstop with rfl | ⟨failure, rfl⟩
        · nomatch ho
        · exact ⟨_, .turns_hard h⟩
      · have hlt : tr₂.toList.length < n := by
          rw [← hn, Trace.toList_append, Trace.toList_append, List.length_append, List.length_append]
          simp only [Trace.opened, Trace.toList_one, List.length_singleton]
          omega
        obtain ⟨_, hrest⟩ := ih _ hlt h₂ hrule.handle rfl
        rcases hrest.turns_outcome with ⟨vs, rfl⟩ | ⟨failure, rfl⟩
        · exact ⟨_, .turns_more h₁ hrest⟩
        · exact ⟨_, .turns_more_hard h₁ hrest⟩
    | choose_second hmiss hr hnone =>
      cases hnone with
      | apply hnone =>
        cases hnone
        exact ⟨_, .turns_stop (runs_of_again_soft hrule.handle hmiss) hr⟩

/-! ## The repetitions -/

namespace Grammar

/-- A repetition of any number of matches yields what its turns end in. -/
theorem yields_zeroOrMany : (zeroOrMany u).Yields rules s o t ↔ ∃ tr, Runs rules (.turns u) s o t tr := by
  rw [yields_iff_runs]
  constructor
  · rintro ⟨_, h⟩
    cases h with
    | zeroOrMany_some h | zeroOrMany_hard h => exact ⟨_, h⟩
  · rintro ⟨_, h⟩
    exact h.zeroOrMany_of_turns

/-- A repetition that may be empty ends as the rule does. -/
theorem yields_zeroOrMany_iff_rule (hrule : rules.Unrolls u l) :
    (zeroOrMany u).Yields rules s o t ↔ (link l).Yields rules s o t := by
  rw [yields_zeroOrMany, yields_iff_runs]
  constructor
  · rintro ⟨_, h⟩
    exact h.rule_of_turns rfl hrule
  · rintro ⟨_, h⟩
    exact h.turns_of_rule hrule

variable [LawfulContext σ]

/-- A repetition that may not be empty is like the unit and then the rule. -/
theorem alike_oneOrMany_again (hin : InBounds s) (hrule : rules.Unrolls u l) :
    Alike rules s (oneOrMany u) (u.again l) where
  decided {o t} ho := by
    simp only [yields_iff_runs]
    constructor
    · rintro ⟨_, h⟩
      cases h with
      | oneOrMany_none => nomatch ho
      | oneOrMany_some h =>
        cases h with
        | turns_more h₁ h₂ =>
          obtain ⟨_, h₂⟩ := h₂.rule_of_turns rfl hrule
          exact ⟨_, (runs_again_iff hrule).2 (.inr ⟨_, _, _, _, _, h₁, h₂, rfl, rfl⟩)⟩
      | oneOrMany_hard h =>
        cases h with
        | turns_hard h => exact ⟨_, (runs_again_iff hrule).2 (.inl ⟨h, rfl⟩)⟩
        | turns_more_hard h₁ h₂ =>
          obtain ⟨_, h₂⟩ := h₂.rule_of_turns rfl hrule
          exact ⟨_, (runs_again_iff hrule).2 (.inr ⟨_, _, _, _, _, h₁, h₂, rfl, rfl⟩)⟩
    · rintro ⟨_, h⟩
      rcases (runs_again_iff hrule).1 h with ⟨h, hstop⟩ | ⟨v, s', o', tr₁, tr₂, h₁, h₂, rfl, -⟩
      · rcases Outcome.isMatch_eq_false_iff.1 hstop with rfl | ⟨failure, rfl⟩
        · nomatch ho
        · exact ⟨_, .oneOrMany_hard (.turns_hard h)⟩
      · obtain ⟨_, hrest⟩ := h₂.turns_of_rule hrule
        rcases hrest.turns_outcome with ⟨vs, rfl⟩ | ⟨failure, rfl⟩
        · exact ⟨_, .oneOrMany_some (.turns_more h₁ hrest)⟩
        · exact ⟨_, .oneOrMany_hard (.turns_more_hard h₁ hrest)⟩
  missed := by
    simp only [yields_iff_runs]
    constructor
    · rintro ⟨_, _, h⟩
      cases h with
      | oneOrMany_none h =>
        cases h with
        | turns_stop h _ => exact ⟨_, _, (runs_again_iff hrule).2 (.inl ⟨h, rfl⟩)⟩
    · rintro ⟨_, _, h⟩
      have hmiss := runs_of_again_soft hrule h
      exact ⟨s, _, .oneOrMany_none (.turns_stop hmiss (LawfulContext.restore_backup hin hmiss.descends))⟩

/-- A repetition that may not be empty gives back what its only turn took when it fails softly. -/
theorem eq_of_yields_oneOrMany_soft (h : (oneOrMany u).Yields rules s .soft t) : t = s :=
  h.eq_of_not_exposed nofun nofun

end Grammar

/-- Declare a rule as the unit and then the rule itself, with the value of the unit in front of the list, or else the empty list, for
which nothing is taken. The declaration succeeds. A repetition of the unit that may be empty has the outcome of the rule and leaves
the same context, and one ends exactly when the other does. A repetition that may not be empty has the outcome of the unit and then
the rule; after a match and after a hard failure it leaves the same context, and after a soft failure the context is as it was. -/
theorem repetition_is_rule [LawfulContext σ] (u : Grammar) (store : Store) :
    ∃ rule store', (Builder.declare fun handle => pure ((), u.unrolled handle)).run store = .ok (((), rule, []), store') ∧
      ∀ (rules : Rules) (l : Link), rules rule.rule = store'.bodies rule.rule → l.rule = rule.rule → ∀ s : σ, InBounds s →
        (∀ o t, (Grammar.zeroOrMany u).Yields rules s o t ↔ (Grammar.link l).Yields rules s o t) ∧
        ((Grammar.zeroOrMany u).Ends rules s ↔ (Grammar.link l).Ends rules s) ∧
        (∀ o, (∃ t, (Grammar.oneOrMany u).Yields rules s o t) ↔ ∃ t, (u.again l).Yields rules s o t) ∧
        (∀ o t, o ≠ .soft → ((Grammar.oneOrMany u).Yields rules s o t ↔ (u.again l).Yields rules s o t)) ∧
        (∀ t, (Grammar.oneOrMany u).Yields rules s .soft t → t = s) ∧
        ((Grammar.oneOrMany u).Ends rules s ↔ (u.again l).Ends rules s) := by
  refine ⟨store.fresh.1, _, Builder.run_declare_of_extends rfl (.refl _), ?_⟩
  intro rules l hbodies hl s hin
  have hrule : rules.Unrolls u l := by
    have hhandle : l.handle = store.fresh.1.handle := by rw [Link.handle, Link.handle, hl]
    rw [Rules.Unrolls, hl, hbodies, hhandle]
    exact Builder.bodies_put_fresh (.refl _) _
  have hzero : ∀ o t, (Grammar.zeroOrMany u).Yields rules s o t ↔ (Grammar.link l).Yields rules s o t :=
    fun o t => Grammar.yields_zeroOrMany_iff_rule hrule
  have hone : Grammar.Alike rules s (.oneOrMany u) (u.again l) := Grammar.alike_oneOrMany_again hin hrule
  refine ⟨hzero, Grammar.ends_congr hin fun o => ?_, fun o => hone.outcome_iff, fun o t => hone.yields_iff,
    fun t => Grammar.eq_of_yields_oneOrMany_soft, Grammar.ends_congr hin fun o => hone.outcome_iff⟩
  simp only [hzero]

end

/-! ### A hasty letter -/

/-- Takes an item, and matches if it is the letter `a`; otherwise it fails softly, with the item taken. -/
def hastyLetter : Grammar :=
  .apply (.popFront fun item => .done (if item = some (.char 'a') then .matched (.char 'a') else .soft))

/-- The only rule is that for the repetition of the hasty letter. -/
def hastyRules : Rules
  | 0 => some (.wrap .erased (hastyLetter.unrolled ⟨0, false⟩))
  | _ => none

/-- On `aab` the repetition and the rule both find two letters and give the `b` back, which the last attempt took. On `b` the
repetition that may not be empty fails softly and gives the letter back; so do the letter and then the rule, without giving it
back. -/
theorem hastyLetter_repeats_by_rule :
    ((Grammar.zeroOrMany hastyLetter).Yields hastyRules (Text.ofString "aab") (.matched (.list [.char 'a', .char 'a'])) ⟨2, ['b']⟩ ∧
      (Grammar.link ⟨0, true⟩).Yields hastyRules (Text.ofString "aab") (.matched (.list [.char 'a', .char 'a'])) ⟨2, ['b']⟩ ∧
      (hastyLetter.again ⟨0, true⟩).Yields hastyRules (Text.ofString "aab") (.matched (.list [.char 'a', .char 'a']))
        ⟨2, ['b']⟩) ∧
    (∃ t, (Grammar.oneOrMany hastyLetter).Yields hastyRules (Text.ofString "b") .soft t ∧ t = Text.ofString "b") ∧
    (hastyLetter.again ⟨0, true⟩).Yields hastyRules (Text.ofString "b") .soft ⟨1, []⟩ := by
  obtain ⟨rule, store', hdeclare, hsame⟩ := repetition_is_rule (σ := Text) hastyLetter .empty
  have hrun : (Builder.declare fun handle => pure ((), hastyLetter.unrolled handle)).run Store.empty =
      .ok (((), ⟨0, true⟩, []), ⟨#[.bound (.wrap .erased (hastyLetter.unrolled ⟨0, false⟩))]⟩) := rfl
  rw [hrun] at hdeclare
  cases hdeclare
  have hmany : (Grammar.zeroOrMany hastyLetter).Yields hastyRules (Text.ofString "aab")
      (.matched (.list [.char 'a', .char 'a'])) ⟨2, ['b']⟩ := Grammar.yields_of_run 6 (by decide +kernel)
  have hsome : (Grammar.oneOrMany hastyLetter).Yields hastyRules (Text.ofString "aab")
      (.matched (.list [.char 'a', .char 'a'])) ⟨2, ['b']⟩ := Grammar.yields_of_run 6 (by decide +kernel)
  have hmiss : (hastyLetter.again ⟨0, true⟩).Yields hastyRules (Text.ofString "b") .soft ⟨1, []⟩ :=
    Grammar.yields_of_run 4 (by decide +kernel)
  obtain ⟨hzero, -, -, hone, -, -⟩ := hsame hastyRules ⟨0, true⟩ rfl rfl (Text.ofString "aab") trivial
  obtain ⟨-, -, houtcome, -, hback, -⟩ := hsame hastyRules ⟨0, true⟩ rfl rfl (Text.ofString "b") trivial
  obtain ⟨t, hnone⟩ := (houtcome .soft).2 ⟨_, hmiss⟩
  exact ⟨⟨hmany, (hzero _ _).1 hmany, (hone _ _ (by simp)).1 hsome⟩, ⟨t, hnone, hback t hnone⟩, hmiss⟩

end Backtrack
