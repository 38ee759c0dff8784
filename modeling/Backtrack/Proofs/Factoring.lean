import Backtrack.Proofs.Continuations

/-!
# Left factoring

Where every candidate of an alternation begins with the same unit, that unit can be run once, and the alternation be tried past it. The
one grammar runs the unit again for each candidate and goes back to where it began; the other goes back to where it ended, and at last
to where it began. The outcome is the same, and so is the context, if the unit itself takes nothing when it fails softly.
-/

namespace Backtrack

open LawfulContext (InBounds)

namespace Grammar

section

variable {σ : Type} [Context σ] {rules : Rules} {s t t' : σ} {o : Outcome Value}

/-- An alternation over nothing goes back to where the remembered place was. -/
theorem endsFrom_oneOf_nil : EndsFrom rules s (oneOf []) t o t' ↔ o = .soft ∧ t' = s := by
  simp only [EndsFrom, yields_oneOf_nil]
  constructor
  · rintro (⟨⟨rfl, -⟩, ho⟩ | ⟨-, ho, ht⟩)
    · exact absurd rfl ho
    · exact ⟨ho, ht⟩
  · rintro ⟨rfl, rfl⟩
    exact .inr ⟨⟨t, trivial, rfl⟩, rfl, rfl⟩

end

section

variable {σ : Type} [Context σ] [LawfulContext σ] {rules : Rules} {s s' t t' : σ} {o o' : Outcome Value} {a g : Grammar}
  {gs : List Grammar} {next : Value → Grammar} {held : List RuleId} {nexts : List ((Value → Grammar) × List RuleId)} {v : Value}

/-! ## Alternations -/

/-- An alternation that is selected tries its candidates one after the other. -/
theorem endsFrom_oneOf_cons (hin : InBounds t) :
    EndsFrom rules s (oneOf (g :: gs)) t o t' ↔
      EndsFrom rules s g t o t' ∧ o.isSoft = false ∨ (∃ u, g.Yields rules t .soft u) ∧ EndsFrom rules s (oneOf gs) t o t' := by
  by_cases ho : o = .soft
  · subst ho
    simp only [endsFrom_soft, (tries_oneOf_cons hin).missed, Outcome.isSoft, Bool.true_eq_false, and_false, false_or, exists_and_left,
      and_assoc]
  · simp only [endsFrom_of_ne_soft ho]
    exact tries_oneOf_cons hin o t'

/-- An alternation none of whose candidates applies fails softly and gives back what they took. -/
theorem yields_oneOf_of_missed (hin : InBounds s) (h : ∀ g ∈ gs, ∃ u, g.Yields rules s .soft u) :
    (oneOf gs).Yields rules s o t ↔ o = .soft ∧ t = s := by
  induction gs with
  | nil => exact yields_oneOf_nil
  | cons g gs ih =>
    obtain ⟨u, hmiss⟩ := h g List.mem_cons_self
    rw [tries_oneOf_cons hin o t, ih fun g' hg' => h g' (List.mem_cons_of_mem g hg')]
    constructor
    · rintro (⟨hg, ho⟩ | ⟨-, hrest⟩)
      · obtain ⟨rfl, -⟩ := hg.unique hmiss
        nomatch ho
      · exact hrest
    · exact fun hrest => .inr ⟨⟨u, hmiss⟩, hrest⟩

/-! ## A unit in front -/

/-- Where the first unit matches, the selected one decides. -/
theorem yields_bind_of_matched (hin : InBounds s) (ha : a.Yields rules s (.matched v) s') :
    (bind a next held).Yields rules s o t ↔ EndsFrom rules s (next v) s' o t := by
  rw [yields_bind hin]
  constructor
  · rintro (⟨h, ho⟩ | ⟨w, u, h, hnext⟩)
    · obtain ⟨rfl, -⟩ := h.unique ha
      nomatch ho
    · obtain ⟨hw, rfl⟩ := h.unique ha
      cases hw
      exact hnext
  · exact fun hnext => .inr ⟨v, s', ha, hnext⟩

/-- Where the first unit does not match, it decides. -/
theorem yields_bind_of_stops (hin : InBounds s) (ha : a.Yields rules s o' s') (ho' : o'.isMatch = false) :
    (bind a next held).Yields rules s o t ↔ o = o' ∧ t = s' := by
  rw [yields_bind hin]
  constructor
  · rintro (⟨h, -⟩ | ⟨w, u, h, -⟩)
    · exact h.unique ha
    · obtain ⟨rfl, -⟩ := ha.unique h
      nomatch ho'
  · rintro ⟨rfl, rfl⟩
    exact .inl ⟨ha, ho'⟩

/-- Candidates that begin with a unit that matches end as the alternation past it does, and a soft failure goes back to where the unit
began. A candidate is missing from there exactly when what it selects is missing past the unit. -/
theorem yields_oneOf_bind_of_matched (hin : InBounds s) (ha : a.Yields rules s (.matched v) s') :
    (oneOf (nexts.map fun n => bind a n.1 n.2)).Yields rules s o t ↔ EndsFrom rules s (oneOf (nexts.map fun n => n.1 v)) s' o t := by
  induction nexts with
  | nil =>
    rw [List.map_nil, List.map_nil, yields_oneOf_nil, endsFrom_oneOf_nil]
  | cons n nexts ih =>
    have hmissed : (∃ u, (bind a n.1 n.2).Yields rules s .soft u) ↔ ∃ u, (n.1 v).Yields rules s' .soft u := by
      simp only [yields_bind_of_matched hin ha, endsFrom_soft, exists_and_left, exists_eq, and_true]
    rw [List.map_cons, List.map_cons, tries_oneOf_cons hin o t, endsFrom_oneOf_cons (ha.inBounds hin), hmissed, ih,
      yields_bind_of_matched hin ha]

/-- Candidates that begin with a unit that does not match end as that unit does, if it takes nothing when it fails softly. -/
theorem yields_oneOf_bind_of_stops (hin : InBounds s) (hne : nexts ≠ []) (ha : a.Yields rules s o' s') (ho' : o'.isMatch = false)
    (hclean : o' = .soft → s' = s) :
    (oneOf (nexts.map fun n => bind a n.1 n.2)).Yields rules s o t ↔ o = o' ∧ t = s' := by
  rcases Outcome.isMatch_eq_false_iff.1 ho' with rfl | ⟨failure, rfl⟩
  · rw [hclean rfl]
    refine yields_oneOf_of_missed hin fun g hg => ?_
    obtain ⟨n, -, rfl⟩ := List.mem_map.1 hg
    exact ⟨s', (yields_bind_of_stops hin ha ho').2 ⟨rfl, rfl⟩⟩
  · obtain ⟨n, rest, rfl⟩ := List.exists_cons_of_ne_nil hne
    rw [List.map_cons, tries_oneOf_cons hin o t]
    simp only [yields_bind_of_stops hin ha ho']
    constructor
    · rintro (⟨h, -⟩ | ⟨⟨_, hsoft, -⟩, -⟩)
      · exact h
      · nomatch hsoft
    · rintro ⟨rfl, rfl⟩
      exact .inl ⟨⟨rfl, rfl⟩, rfl⟩

/-- What stands first in every candidate of an alternation has to end for the alternation to end. -/
theorem exists_yields_of_oneOf_bind (hin : InBounds s) (hne : nexts ≠ [])
    (h : (oneOf (nexts.map fun n => bind a n.1 n.2)).Yields rules s o t) : ∃ o' s', a.Yields rules s o' s' := by
  have hbind : ∀ {n : (Value → Grammar) × List RuleId} {o'' u}, (bind a n.1 n.2).Yields rules s o'' u →
      ∃ o' s', a.Yields rules s o' s' := by
    intro n o'' u hn
    rcases (yields_bind hin).1 hn with ⟨ha, -⟩ | ⟨v, s', ha, -⟩
    · exact ⟨_, _, ha⟩
    · exact ⟨_, _, ha⟩
  obtain ⟨n, rest, rfl⟩ := List.exists_cons_of_ne_nil hne
  rcases (tries_oneOf_cons hin o t).1 h with ⟨hn, -⟩ | ⟨⟨u, hn⟩, -⟩
  · exact hbind hn
  · exact hbind hn

end

end Grammar

/-- Let a unit leave the context unchanged when it fails softly. An alternation of candidates that all begin with the unit, each with a
continuation of its own, has the same outcome as the unit and then the alternation of what the continuations select; both leave the
same context, and one ends exactly when the other does. The continuations may select any units, also such as fail hard, or take items
before they fail softly; there has to be at least one. -/
theorem left_factoring {σ : Type} [Context σ] [LawfulContext σ] (rules : Rules) {s : σ} (hin : InBounds s) (a : Grammar)
    (hclean : ∀ t, a.Yields rules s .soft t → t = s) (nexts : List ((Value → Grammar) × List RuleId)) (hne : nexts ≠ [])
    (held : List RuleId) :
    Grammar.Equivalent rules s (.oneOf (nexts.map fun n => .bind a n.1 n.2))
      (.bind a (fun v => .oneOf (nexts.map fun n => n.1 v)) held) := by
  refine .of_yields hin fun o t => ?_
  by_cases hends : ∃ o' s', a.Yields rules s o' s'
  · obtain ⟨o', s', ha⟩ := hends
    cases ho' : o'.isMatch with
    | true =>
      obtain ⟨v, rfl⟩ : ∃ v, o' = .matched v := by
        cases o' with
        | matched v => exact ⟨v, rfl⟩
        | soft | hard => nomatch ho'
      rw [Grammar.yields_oneOf_bind_of_matched hin ha, Grammar.yields_bind_of_matched hin ha]
    | false =>
      have hstart : o' = .soft → s' = s := by
        rintro rfl
        exact hclean s' ha
      rw [Grammar.yields_oneOf_bind_of_stops hin hne ha ho' hstart, Grammar.yields_bind_of_stops hin ha ho']
  · constructor
    · exact fun h => absurd (Grammar.exists_yields_of_oneOf_bind hin hne h) hends
    · intro h
      rcases (Grammar.yields_bind hin).1 h with ⟨ha, -⟩ | ⟨v, s', ha, -⟩
      · exact absurd ⟨_, _, ha⟩ hends
      · exact absurd ⟨_, _, ha⟩ hends

/-! ### Three ways to go on after a letter -/

/-- What may follow a letter: a leaf that takes an item and fails softly, the letter `b` and then `c` without fail, and the letter
itself once more. -/
def afterLetter : List ((Value → Grammar) × List RuleId) :=
  [(fun _ => carelessLeaf, []), (fun _ => .seq (.pop (· == .char 'b')) (.pop (· == .char 'c')) (.done .unexpected), []),
    (fun v => .pop (· == v), [])]

/-- A letter that is missing is not taken. -/
theorem letter_clean {s : Text} (t : Text) (h : (Grammar.pop (· == .char 'a')).Yields (fun _ => none) s .soft t) : t = s :=
  h.eq_of_not_exposed nofun nofun

/-- On `aab` the first two continuations are given up and the third matches the second letter; on `abb` the second fails hard where `c`
is missing. The factored unit ends in the same ways, and leaves the same letters. -/
theorem afterLetter_factors :
    (Grammar.bind (.pop (· == .char 'a')) (fun v => .oneOf (afterLetter.map fun n => n.1 v)) []).Yields (fun _ => none)
        (Text.ofString "aab") (.matched (.char 'a')) ⟨2, ['b']⟩ ∧
      (Grammar.bind (.pop (· == .char 'a')) (fun v => .oneOf (afterLetter.map fun n => n.1 v)) []).Yields (fun _ => none)
        (Text.ofString "abb") (.hard .unexpected) ⟨2, ['b']⟩ := by
  have hthird : (Grammar.oneOf (afterLetter.map fun n => .bind (.pop (· == .char 'a')) n.1 n.2)).Yields (fun _ => none)
      (Text.ofString "aab") (.matched (.char 'a')) ⟨2, ['b']⟩ := Grammar.yields_of_run 6 (by decide +kernel)
  have hhard : (Grammar.oneOf (afterLetter.map fun n => .bind (.pop (· == .char 'a')) n.1 n.2)).Yields (fun _ => none)
      (Text.ofString "abb") (.hard .unexpected) ⟨2, ['b']⟩ := Grammar.yields_of_run 6 (by decide +kernel)
  exact ⟨((left_factoring (fun _ => none) trivial _ letter_clean afterLetter (by simp [afterLetter]) []).yields _ _).1 hthird,
    ((left_factoring (fun _ => none) trivial _ letter_clean afterLetter (by simp [afterLetter]) []).yields _ _).1 hhard⟩

end Backtrack
