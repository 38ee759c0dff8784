import Backtrack.Proofs.SoftFailure

/-!
# Units that go back by themselves

A repetition and an alternation remember the place before each part that they run, and go back to it where the part fails softly; so
they leave the context as it was when they fail softly themselves, whatever their parts take. A `bind` remembers the place too, but goes
back to it only where the unit that the value selects fails softly. Where its first unit does, the `bind` fails softly at once, and what
the first unit took stays taken.
-/

namespace Backtrack

namespace Grammar

/-- Whether the unit remembers the place where it begins, in order to fail softly from there. -/
def remembersPlace : Grammar → Bool
  | .bind .. | .oneOrMany _ | .oneOf _ => true
  | _ => false

/-- What is run first: of a `bind` what its first unit runs first, and of any other unit the unit itself. -/
def core : Grammar → Grammar
  | .bind a _ _ => a.core
  | g => g

section

variable {σ : Type} [Context σ] {rules : Rules} {s t : σ} {a g : Grammar} {next : Value → Grammar} {held : List RuleId}

/-- What makes the core of a chain of `bind`s fail softly makes the chain fail softly, and what the core took stays taken. -/
theorem Yields.of_core (h : g.core.Yields rules s .soft t) : g.Yields rules s .soft t := by
  induction g using core.induct with
  | case1 a next held ih =>
    obtain ⟨_, hrun⟩ := yields_iff_runs.1 (ih h)
    exact (Runs.bind_stop hrun rfl).yields
  | case2 g hbase =>
    rwa [core.eq_2 g hbase] at h

variable [LawfulContext σ]

/-- A `bind` that fails softly has gone back, or its first unit has failed softly. -/
theorem eq_or_yields_of_bind_soft (h : (bind a next held).Yields rules s .soft t) : t = s ∨ a.Yields rules s .soft t := by
  obtain ⟨_, h⟩ := yields_iff_runs.1 h
  cases h with
  | bind_stop h _ => exact .inr h.yields
  | bind_go _ _ ho => nomatch ho
  | bind_back h₁ h₂ hr => exact .inl (LawfulContext.eq_of_restore (h₁.descends.trans h₂.descends) hr)

/-- Where a chain of `bind`s takes items and fails softly, it is its core that does. -/
theorem yields_core_of_taken (h : g.Yields rules s .soft t) (ht : t ≠ s) : g.core.Yields rules s .soft t := by
  induction g using core.induct with
  | case1 a next held ih =>
    rcases eq_or_yields_of_bind_soft h with heq | h
    · exact absurd heq ht
    · exact ih h
  | case2 g hbase =>
    rwa [core.eq_2 g hbase]

/-- The core of a chain is no `bind`, so if it remembers the place it goes back to it. -/
theorem eq_of_core_soft (hg : g.core.remembersPlace = true) (h : g.core.Yields rules s .soft t) : t = s := by
  induction g using core.induct with
  | case1 a next held ih => exact ih hg h
  | case2 g hbase =>
    rw [core.eq_2 g hbase] at hg h
    cases g with
    | bind a next held => exact absurd rfl (hbase a next held)
    | oneOrMany | oneOf => exact h.eq_of_not_exposed nofun nofun
    | _ => nomatch hg

end

end Grammar

/-- A repetition and an alternation that fail softly leave the context as it was, whatever their parts are and take. A `bind` does so
once its first unit has matched. In general, such a unit, with such units inside it to any depth, fails softly after taking items exactly
where the core of its chain of `bind`s does; and that core is none of the three. -/
theorem taken_exactly_by_core {σ : Type} [Context σ] [LawfulContext σ] (rules : Rules) (s : σ) :
    (∀ u t, (Grammar.oneOrMany u).Yields rules s .soft t → t = s) ∧
      (∀ gs t, (Grammar.oneOf gs).Yields rules s .soft t → t = s) ∧
      (∀ a next held v s' t, a.Yields rules s (.matched v) s' → (Grammar.bind a next held).Yields rules s .soft t → t = s) ∧
      ∀ (g : Grammar) (t : σ),
        g.Yields rules s .soft t ∧ t ≠ s ↔ g.core.remembersPlace = false ∧ g.core.Yields rules s .soft t ∧ t ≠ s := by
  refine ⟨fun u t h => h.eq_of_not_exposed nofun nofun, fun gs t h => h.eq_of_not_exposed nofun nofun,
    fun a next held v s' t ha h => ?_, fun g t => ⟨?_, ?_⟩⟩
  · rcases Grammar.eq_or_yields_of_bind_soft h with ht | hsoft
    · exact ht
    · nomatch (ha.unique hsoft).1
  · rintro ⟨h, ht⟩
    have hcore := Grammar.yields_core_of_taken h ht
    refine ⟨?_, hcore, ht⟩
    cases hg : g.core.remembersPlace with
    | false => rfl
    | true => exact absurd (Grammar.eq_of_core_soft hg hcore) ht
  · rintro ⟨-, hcore, ht⟩
    exact ⟨.of_core hcore, ht⟩

/-- A `bind` does not always leave the context as it was: where its first unit takes a letter and fails softly, the letter stays
taken. -/
theorem bind_keeps_what_base_took :
    ¬∀ (a : Grammar) (next : Value → Grammar) (s t : Text), (Grammar.bind a next []).Yields (fun _ => none) s .soft t → t = s := by
  intro h
  have htaken : (Grammar.bind carelessLeaf Grammar.always []).Yields (fun _ => none) (Text.ofString "abc") .soft ⟨1, ['b', 'c']⟩ :=
    Grammar.yields_of_run 3 (by decide +kernel)
  exact absurd (h _ _ _ _ htaken) (by decide)

/-- Over a leaf that takes an item and fails softly, two `bind`s take the item; over an alternation of such leaves they take nothing. -/
theorem carelessLeaf_taken_by_core :
    (Grammar.bind (.bind carelessLeaf Grammar.always []) Grammar.always []).Yields (fun _ => none) (Text.ofString "abc") .soft
        ⟨1, ['b', 'c']⟩ ∧
      ∀ t, (Grammar.bind (.bind (.oneOf [carelessLeaf, carelessLeaf]) Grammar.always []) Grammar.always []).Yields (fun _ => none)
        (Text.ofString "abc") .soft t → t = Text.ofString "abc" := by
  have hleaf : carelessLeaf.Yields (fun _ => none) (Text.ofString "abc") .soft ⟨1, ['b', 'c']⟩ :=
    Grammar.yields_of_run 2 (by decide +kernel)
  obtain ⟨-, -, -, htaken⟩ := taken_exactly_by_core (fun _ => none) (Text.ofString "abc")
  refine ⟨((htaken (.bind (.bind carelessLeaf Grammar.always []) Grammar.always []) _).2 ⟨rfl, hleaf, by decide⟩).1, fun t h => ?_⟩
  by_cases ht : t = Text.ofString "abc"
  · exact ht
  · nomatch ((htaken _ t).1 ⟨h, ht⟩).1

end Backtrack
