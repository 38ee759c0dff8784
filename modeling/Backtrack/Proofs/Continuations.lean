import Backtrack.Proofs.Alternation
import Backtrack.Proofs.Termination

/-!
# Units selected by values

A unit whose value selects the next one gives back what it took when that one fails softly. So a chain of such units can be nested to
the left or to the right: whichever of them goes back first, the outermost goes back last, to where all of them began. Selecting a
unit that matches a value and takes nothing changes the value only, and after such a unit the selected one stands as if alone, except
that it gives back what it took when it fails softly.
-/

namespace Backtrack

open LawfulContext (InBounds)

namespace Grammar

section

variable {σ : Type} [Context σ] {rules : Rules} {s t t' : σ} {o : Outcome Value} {a g : Grammar}

/-- Started in the context `t`, the unit ends in `o` and leaves `t'`, except that a soft failure leaves the context `s`, which was
remembered before. -/
def EndsFrom (rules : Rules) (s : σ) (g : Grammar) (t : σ) (o : Outcome Value) (t' : σ) : Prop :=
  g.Yields rules t o t' ∧ o ≠ .soft ∨ (∃ u, g.Yields rules t .soft u) ∧ o = .soft ∧ t' = s

/-- A selected unit that fails softly ends in the context remembered before. -/
theorem endsFrom_soft : EndsFrom rules s g t .soft t' ↔ (∃ u, g.Yields rules t .soft u) ∧ t' = s := by
  simp [EndsFrom]

/-- A selected unit that does not fail softly ends where it stands. -/
theorem endsFrom_of_ne_soft (ho : o ≠ .soft) : EndsFrom rules s g t o t' ↔ g.Yields rules t o t' := by
  simp [EndsFrom, ho]

/-- A unit that always matches takes nothing. -/
theorem yields_always {v : Value} : (always v).Yields rules s o t ↔ o = .matched v ∧ t = s := by
  rw [yields_iff_runs]
  constructor
  · rintro ⟨_, h⟩
    cases h with
    | apply h =>
      cases h
      exact ⟨rfl, rfl⟩
  · rintro ⟨rfl, rfl⟩
    exact ⟨.nil, .apply rfl⟩

/-- A unit that always matches takes nothing where it is selected. -/
theorem endsFrom_always {v : Value} : EndsFrom rules s (always v) t o t' ↔ o = .matched v ∧ t' = t := by
  simp only [EndsFrom, yields_always]
  constructor
  · rintro (⟨h, -⟩ | ⟨⟨u, h, -⟩, -⟩)
    · exact h
    · nomatch h
  · rintro ⟨rfl, rfl⟩
    exact .inl ⟨⟨rfl, rfl⟩, nofun⟩

/-- A conversion yields the converted outcomes of its unit. -/
theorem yields_map {f : Value → Value} : (map f a).Yields rules s o t ↔ ∃ o', a.Yields rules s o' t ∧ o'.map f = o := by
  simp only [yields_iff_runs]
  constructor
  · rintro ⟨_, h⟩
    cases h with
    | map_match h => exact ⟨_, ⟨_, h⟩, rfl⟩
    | map_stop h ho => exact ⟨o, ⟨_, h⟩, Outcome.map_of_isMatch_eq_false ho f⟩
  · rintro ⟨o', ⟨_, h⟩, rfl⟩
    cases o' with
    | matched v => exact ⟨_, .map_match h⟩
    | soft | hard => exact ⟨_, .map_stop h rfl⟩

end

section

variable {σ : Type} [Context σ] [LawfulContext σ] {rules : Rules} {s t t' : σ} {o : Outcome Value} {a g : Grammar}
  {next : Value → Grammar} {held : List RuleId}

/-- A parse within the input stays within the input. -/
theorem Yields.inBounds (h : g.Yields rules s o t) (hin : InBounds s) : InBounds t := by
  obtain ⟨_, h⟩ := yields_iff_runs.1 h
  exact h.descends.inBounds hin

/-- A unit and the one that its value selects end as the first does, if that does not match; otherwise as the selected unit does from
there, and a soft failure goes back to where the first began. -/
theorem yields_bind (hin : InBounds s) :
    (bind a next held).Yields rules s o t ↔
      a.Yields rules s o t ∧ o.isMatch = false ∨
        ∃ v s', a.Yields rules s (.matched v) s' ∧ EndsFrom rules s (next v) s' o t := by
  simp only [yields_iff_runs, EndsFrom]
  constructor
  · rintro ⟨_, h⟩
    cases h with
    | bind_stop h ho => exact .inl ⟨⟨_, h⟩, ho⟩
    | bind_go h₁ h₂ ho =>
      refine .inr ⟨_, _, ⟨_, h₁⟩, .inl ⟨⟨_, h₂⟩, ?_⟩⟩
      rintro rfl
      nomatch ho
    | bind_back h₁ h₂ hr =>
      have ht : t = s := LawfulContext.eq_of_restore (h₁.descends.trans h₂.descends) hr
      exact .inr ⟨_, _, ⟨_, h₁⟩, .inr ⟨⟨_, _, h₂⟩, rfl, ht⟩⟩
  · rintro (⟨⟨_, h⟩, ho⟩ | ⟨v, s', ⟨_, h₁⟩, ⟨⟨_, h₂⟩, ho⟩ | ⟨⟨u, _, h₂⟩, rfl, rfl⟩⟩)
    · exact ⟨_, .bind_stop h ho⟩
    · cases o with
      | matched | hard => exact ⟨_, .bind_go h₁ h₂ rfl⟩
      | soft => exact absurd rfl ho
    · exact ⟨_, .bind_back h₁ h₂ (LawfulContext.restore_backup hin (h₁.descends.trans h₂.descends))⟩

/-- A unit and the one that its value selects, selected themselves: wherever the failure comes, a soft one goes back to the context
remembered before. -/
theorem endsFrom_bind (hin : InBounds t) :
    EndsFrom rules s (bind a next held) t o t' ↔
      EndsFrom rules s a t o t' ∧ o.isMatch = false ∨
        ∃ v u, a.Yields rules t (.matched v) u ∧ EndsFrom rules s (next v) u o t' := by
  by_cases ho : o = .soft
  · subst ho
    simp only [endsFrom_soft, yields_bind hin]
    constructor
    · rintro ⟨⟨u, ⟨ha, -⟩ | ⟨v, u', ha, hnext, -⟩⟩, rfl⟩
      · exact .inl ⟨⟨⟨u, ha⟩, rfl⟩, rfl⟩
      · exact .inr ⟨v, u', ha, hnext, rfl⟩
    · rintro (⟨⟨⟨u, ha⟩, rfl⟩, -⟩ | ⟨v, u', ha, hnext, rfl⟩)
      · exact ⟨⟨u, .inl ⟨ha, rfl⟩⟩, rfl⟩
      · exact ⟨⟨t, .inr ⟨v, u', ha, hnext, rfl⟩⟩, rfl⟩
  · simp only [endsFrom_of_ne_soft ho, yields_bind hin]

/-- A unit and the one that its value selects match exactly where both do. -/
theorem yields_bind_matched (hin : InBounds s) {w : Value} :
    (bind a next held).Yields rules s (.matched w) t ↔
      ∃ v s', a.Yields rules s (.matched v) s' ∧ (next v).Yields rules s' (.matched w) t := by
  simp [yields_bind hin, endsFrom_of_ne_soft, Outcome.isMatch]

/-! ## The laws -/

/-- From the context the units have the same outcome and leave the same context, and one ends exactly when the other does. -/
structure Equivalent (rules : Rules) (s : σ) (g g' : Grammar) : Prop where
  yields (o : Outcome Value) (t : σ) : g.Yields rules s o t ↔ g'.Yields rules s o t
  ends : g.Ends rules s ↔ g'.Ends rules s

/-- Units that yield the same are equivalent. -/
theorem Equivalent.of_yields {g' : Grammar} (hin : InBounds s) (h : ∀ o t, g.Yields rules s o t ↔ g'.Yields rules s o t) :
    Equivalent rules s g g' := by
  refine ⟨h, ends_congr hin fun o => ?_⟩
  simp only [h]

/-- The third unit may be selected after the first two or along with the second. -/
theorem equivalent_bind_assoc (hin : InBounds s) (a : Grammar) (f g : Value → Grammar) (held₁ held₂ held₃ : List RuleId)
    (held₄ : Value → List RuleId) :
    Equivalent rules s (bind (bind a f held₁) g held₂) (bind a (fun v => bind (f v) g (held₄ v)) held₃) := by
  refine .of_yields hin fun o t => ?_
  rw [yields_bind hin, yields_bind hin, yields_bind hin]
  constructor
  · rintro (⟨hstop | ⟨v, s₁, ha, hf⟩, ho⟩ | ⟨w, s', h, hg⟩)
    · exact .inl hstop
    · exact .inr ⟨v, s₁, ha, (endsFrom_bind (ha.inBounds hin)).2 (.inl ⟨hf, ho⟩)⟩
    · obtain ⟨v, s₁, ha, hf⟩ := (yields_bind_matched hin).1 h
      exact .inr ⟨v, s₁, ha, (endsFrom_bind (ha.inBounds hin)).2 (.inr ⟨w, s', hf, hg⟩)⟩
  · rintro (⟨h, ho⟩ | ⟨v, s₁, ha, h⟩)
    · exact .inl ⟨.inl ⟨h, ho⟩, ho⟩
    · rcases (endsFrom_bind (ha.inBounds hin)).1 h with ⟨hf, ho⟩ | ⟨w, s', hf, hg⟩
      · exact .inl ⟨.inr ⟨v, s₁, ha, hf⟩, ho⟩
      · exact .inr ⟨w, s', (yields_bind_matched hin).2 ⟨v, s₁, ha, hf⟩, hg⟩

/-- To select a unit that takes nothing is to convert the value. -/
theorem equivalent_bind_always (hin : InBounds s) (a : Grammar) (h : Value → Value) (held : List RuleId) :
    Equivalent rules s (bind a (fun v => always (h v)) held) (map h a) := by
  refine .of_yields hin fun o t => ?_
  rw [yields_bind hin, yields_map]
  constructor
  · rintro (⟨ha, ho⟩ | ⟨v, s', ha, hv⟩)
    · exact ⟨o, ha, Outcome.map_of_isMatch_eq_false ho h⟩
    · obtain ⟨rfl, rfl⟩ := endsFrom_always.1 hv
      exact ⟨.matched v, ha, rfl⟩
  · rintro ⟨o', ha, rfl⟩
    cases o' with
    | matched v => exact .inr ⟨v, t, ha, endsFrom_always.2 ⟨rfl, rfl⟩⟩
    | soft | hard => exact .inl ⟨ha, rfl⟩

/-- A unit that takes nothing selects the next where it stands. -/
theorem yields_always_bind (hin : InBounds s) {v : Value} :
    (bind (always v) next held).Yields rules s o t ↔ EndsFrom rules s (next v) s o t := by
  rw [yields_bind hin]
  constructor
  · rintro (⟨h, ho⟩ | ⟨w, s', h, hnext⟩)
    · obtain ⟨rfl, -⟩ := yields_always.1 h
      nomatch ho
    · obtain ⟨hw, rfl⟩ := yields_always.1 h
      cases hw
      exact hnext
  · intro hnext
    exact .inr ⟨v, s, yields_always.2 ⟨rfl, rfl⟩, hnext⟩

/-- After a unit that takes nothing, the selected one stands as if alone, but for a soft failure. -/
theorem alike_always_bind (hin : InBounds s) (v : Value) : Alike rules s (bind (always v) next held) (next v) where
  decided {o t} ho := by
    rw [yields_always_bind hin, endsFrom_of_ne_soft]
    rintro rfl
    nomatch ho
  missed := by simp [yields_always_bind hin, endsFrom_soft]

end

end Grammar

/-- Units selected by values obey the laws of a monad, with the contexts that they leave, whatever the units take before they fail.
Nested to the left and to the right, three units have the same outcome and leave the same context. A unit that takes nothing and
matches the value given to it changes nothing behind another, and one that matches a value made from it converts the value. In front
it has the outcome of the unit that it selects; after a match and after a hard failure the context is what that unit leaves, and
after a soft failure it is as it was. -/
theorem bind_obeys_monad_laws {σ : Type} [Context σ] [LawfulContext σ] (rules : Rules) {s : σ} (hin : InBounds s) :
    (∀ (u : Grammar) (f g : Value → Grammar) (held₁ held₂ held₃ : List RuleId) (held₄ : Value → List RuleId),
      Grammar.Equivalent rules s (.bind (.bind u f held₁) g held₂) (.bind u (fun x => .bind (f x) g (held₄ x)) held₃)) ∧
    (∀ (u : Grammar) (held : List RuleId), Grammar.Equivalent rules s (.bind u .always held) u) ∧
    (∀ (u : Grammar) (h : Value → Value) (held : List RuleId),
      Grammar.Equivalent rules s (.bind u (fun x => .always (h x)) held) (.map h u)) ∧
    ∀ (v : Value) (f : Value → Grammar) (held : List RuleId),
      (∀ o, (∃ t, (Grammar.bind (.always v) f held).Yields rules s o t) ↔ ∃ t, (f v).Yields rules s o t) ∧
      (∀ o t, o ≠ .soft → ((Grammar.bind (.always v) f held).Yields rules s o t ↔ (f v).Yields rules s o t)) ∧
      (∀ t, (Grammar.bind (.always v) f held).Yields rules s .soft t → t = s) ∧
      ((Grammar.bind (.always v) f held).Ends rules s ↔ (f v).Ends rules s) := by
  refine ⟨fun u f g held₁ held₂ held₃ held₄ => Grammar.equivalent_bind_assoc hin u f g held₁ held₂ held₃ held₄, ?_,
    fun u h held => Grammar.equivalent_bind_always hin u h held, ?_⟩
  · intro u held
    refine .of_yields hin fun o t => ?_
    have hmap : (Grammar.map id u).Yields rules s o t ↔ u.Yields rules s o t := by
      simp [Grammar.yields_map]
    exact ((Grammar.equivalent_bind_always hin u id held).yields o t).trans hmap
  · intro v f held
    have halike : Grammar.Alike rules s (.bind (.always v) f held) (f v) := Grammar.alike_always_bind hin v
    refine ⟨fun o => halike.outcome_iff, fun o t => halike.yields_iff, ?_, Grammar.ends_congr hin fun o => halike.outcome_iff⟩
    intro t h
    exact (Grammar.endsFrom_soft.1 ((Grammar.yields_always_bind hin).1 h)).2

/-! ### Two letters and a careless leaf -/

/-- Two letters and then a leaf that takes an item and fails softly, nested to the left. -/
def leftChain : Grammar :=
  .bind (.bind (.pop (· == .char 'a')) (fun _ => .pop (· == .char 'b')) []) (fun _ => carelessLeaf) []

/-- The same, nested to the right. -/
def rightChain : Grammar :=
  .bind (.pop (· == .char 'a')) (fun _ => .bind (.pop (· == .char 'b')) (fun _ => carelessLeaf) []) []

/-- On `abc` both chains fail softly at the third letter and go back to the first. Behind the leaf, a unit that takes nothing changes
nothing, so what the leaf took stays taken; in front of it, such a unit gives that back. -/
theorem carelessLeaf_obeys_monad_laws :
    (leftChain.Yields (fun _ => none) (Text.ofString "abc") .soft (Text.ofString "abc") ∧
      rightChain.Yields (fun _ => none) (Text.ofString "abc") .soft (Text.ofString "abc")) ∧
    (Grammar.bind carelessLeaf .always []).Yields (fun _ => none) (Text.ofString "abc") .soft ⟨1, ['b', 'c']⟩ ∧
    (Grammar.map (.tag "letter") (.pop (· == .char 'a'))).Yields (fun _ => none) (Text.ofString "abc")
      (.matched (.tag "letter" (.char 'a'))) ⟨1, ['b', 'c']⟩ ∧
    ∃ t, (Grammar.bind (.always (.list [])) (fun _ => carelessLeaf) []).Yields (fun _ => none) (Text.ofString "abc") .soft t ∧
      t = Text.ofString "abc" := by
  obtain ⟨hassoc, hright, hmap, hleft⟩ := bind_obeys_monad_laws (fun _ => none) (s := Text.ofString "abc") trivial
  have hchain : leftChain.Yields (fun _ => none) (Text.ofString "abc") .soft (Text.ofString "abc") :=
    Grammar.yields_of_run 4 (by decide +kernel)
  have hleaf : carelessLeaf.Yields (fun _ => none) (Text.ofString "abc") .soft ⟨1, ['b', 'c']⟩ :=
    Grammar.yields_of_run 1 (by decide +kernel)
  have htag : (Grammar.bind (.pop (· == .char 'a')) (fun v => .always (.tag "letter" v)) []).Yields (fun _ => none)
      (Text.ofString "abc") (.matched (.tag "letter" (.char 'a'))) ⟨1, ['b', 'c']⟩ :=
    Grammar.yields_of_run 3 (by decide +kernel)
  obtain ⟨houtcome, -, hback, -⟩ := hleft (.list []) (fun _ => carelessLeaf) []
  obtain ⟨t, ht⟩ := (houtcome .soft).2 ⟨_, hleaf⟩
  exact ⟨⟨hchain, ((hassoc _ _ _ [] [] [] fun _ => []).yields _ _).1 hchain⟩, ((hright _ []).yields _ _).2 hleaf,
    ((hmap _ _ []).yields _ _).1 htag, t, ht, hback t ht⟩

end Backtrack
