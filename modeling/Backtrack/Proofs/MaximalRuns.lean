import Backtrack.Proofs.Escape
import Backtrack.Proofs.Repetition

/-!
# Repetitions as maximal runs of matches

A repetition runs its unit in turns, each where the one before it ended, for as long as the unit matches. What it comes to is decided by how
such a run of matches ends. Where the unit then fails softly, the repetition returns the values and goes back to where the last match ended;
where it fails hard, so does the repetition; and where the matches go on without end, or the unit does not return, neither does it.
-/

namespace Backtrack

open LawfulContext (InBounds)

section

variable {σ : Type} [Context σ]

/-- `TakesTurns rules u s vs t tr`: from the context `s` on, the unit matches once for each of the values, each time where the match before
it ended, and the last match leaves the context `t`. The trace `tr` holds what the matches did, each after the call that remembers the place
where it begins, and no more. -/
inductive TakesTurns (rules : Rules) (u : Grammar) : σ → List Value → σ → Trace → Prop where
  | nil {s : σ} : TakesTurns rules u s [] s .nil
  | cons {s s' t : σ} {v : Value} {vs : List Value} {tr₁ tr₂ : Trace} :
      Runs rules (.unit u) s (.matched v) s' tr₁ → TakesTurns rules u s' vs t tr₂ →
      TakesTurns rules u s (v :: vs) t (.opened s ++ (tr₁ ++ tr₂))

/-- From the context `s` on, the unit matches again and again, each time where the match before it ended. -/
def Grammar.MatchesForever (rules : Rules) (u : Grammar) (s : σ) : Prop :=
  ∃ places : Nat → σ, places 0 = s ∧ ∀ i, ∃ v, u.Yields rules (places i) (.matched v) (places (i + 1))

variable {rules : Rules} {u : Grammar} {s s' t : σ} {o : Outcome Value} {v : Value} {vs : List Value} {tr tr' : Trace}

/-! ## Runs of matches -/

namespace TakesTurns

/-- One more match makes the run longer. -/
theorem snoc (h : TakesTurns rules u s vs s' tr) (hlast : Runs rules (.unit u) s' (.matched v) t tr') :
    TakesTurns rules u s (vs ++ [v]) t (tr ++ (.opened s' ++ tr')) := by
  induction h with
  | nil =>
    rw [Trace.nil_append, ← Trace.append_nil tr']
    exact .cons hlast .nil
  | cons h _ ih =>
    rw [Trace.append_assoc, Trace.append_assoc]
    exact .cons h (ih hlast)

/-- The turns of a repetition come to the place where a run of matches ends, and go on from there. -/
theorem reaches (h : TakesTurns rules u s vs t tr) : Reaches rules (fun _ _ => True) (.turns u) s (.turns u) t tr := by
  induction h with
  | nil => exact .here
  | cons h _ ih =>
    rw [← Trace.append_assoc]
    exact ih.of_invokes (.turns_more h) trivial

end TakesTurns

namespace Grammar.MatchesForever

/-- A unit that matches and changes nothing matches forever. -/
theorem of_yields_self (h : u.Yields rules s (.matched v) s) : u.MatchesForever rules s :=
  ⟨fun _ => s, rfl, fun _ => ⟨v, h⟩⟩

/-- A unit that matches, and forever from there on, matches forever. -/
theorem of_yields (h : u.Yields rules s (.matched v) t) (ht : u.MatchesForever rules t) : u.MatchesForever rules s := by
  obtain ⟨places, rfl, hplaces⟩ := ht
  refine ⟨fun i => i.casesOn s places, rfl, fun i => ?_⟩
  cases i with
  | zero => exact ⟨v, h⟩
  | succ i => exact hplaces i

/-- A unit that matches forever matches, and goes on to do so from where that match ends. -/
theorem next (hs : u.MatchesForever rules s) (h : u.Yields rules s o t) : (∃ v, o = .matched v) ∧ u.MatchesForever rules t := by
  obtain ⟨places, rfl, hplaces⟩ := hs
  obtain ⟨v, hfirst⟩ := hplaces 0
  obtain ⟨rfl, rfl⟩ := h.unique hfirst
  exact ⟨⟨v, rfl⟩, fun i => places (i + 1), rfl, fun i => hplaces (i + 1)⟩

/-- What matches forever after a run of matches matches forever from its start on. -/
theorem of_takesTurns (h : TakesTurns rules u s vs t tr) (ht : u.MatchesForever rules t) : u.MatchesForever rules s := by
  induction h with
  | nil => exact ht
  | cons h _ ih => exact .of_yields h.yields (ih ht)

/-- What matches forever does so after any run of its matches. -/
theorem after (hs : u.MatchesForever rules s) (h : TakesTurns rules u s vs t tr) : u.MatchesForever rules t := by
  induction h with
  | nil => exact hs
  | cons h _ ih => exact ih (hs.next h.yields).2

/-- Unless some run of matches ends where the unit does not match, the unit matches forever: from every place that is come to, one match
leads to another such place. -/
theorem of_forall_takesTurns (h : ∀ vs t tr, TakesTurns rules u s vs t tr → ∃ v t', u.Yields rules t (.matched v) t') :
    u.MatchesForever rules s := by
  have hstep : ∀ place : { t // ∃ vs tr, TakesTurns rules u s vs t tr },
      ∃ next : { t // ∃ vs tr, TakesTurns rules u s vs t tr }, ∃ v, u.Yields rules place.1 (.matched v) next.1 := by
    rintro ⟨t, vs, tr, hturns⟩
    obtain ⟨v, t', hmatch⟩ := h vs t tr hturns
    obtain ⟨_, hrun⟩ := yields_iff_runs.1 hmatch
    exact ⟨⟨t', _, _, hturns.snoc hrun⟩, v, hmatch⟩
  choose next hnext using hstep
  refine ⟨fun i => (next^[i] ⟨s, [], .nil, .nil⟩).1, rfl, fun i => ?_⟩
  simp only [Function.iterate_succ_apply']
  exact hnext _

end Grammar.MatchesForever

/-! ## The turns of a repetition -/

/-- The turns end in a hard failure where the unit does after a run of matches. -/
theorem Runs.takesTurns_of_hard {job : Job} {failure : Failure} (h : Runs rules job s o t tr) (hjob : job = .turns u)
    (ho : o = .hard failure) : ∃ vs s' tr₁ tr₂, TakesTurns rules u s vs s' tr₁ ∧ Runs rules (.unit u) s' (.hard failure) t tr₂ ∧
      tr₁ ++ (.opened s' ++ tr₂) = tr := by
  induction h with
  | turns_hard h =>
    cases hjob
    cases ho
    exact ⟨[], _, _, _, .nil, h, Trace.nil_append _⟩
  | turns_more_hard h _ _ ih =>
    cases hjob
    obtain ⟨vs, s', tr₁, tr₂, hturns, hlast, rfl⟩ := ih rfl ho
    exact ⟨_, s', _, tr₂, .cons h hturns, hlast, by simp only [Trace.append_assoc]⟩
  | turns_stop | turns_more => nomatch ho
  | _ => nomatch hjob

/-- The turns fail hard exactly where the unit does after a run of matches, and as it does. -/
theorem runs_turns_hard_iff {failure : Failure} :
    Runs rules (.turns u) s (.hard failure) t tr ↔ ∃ vs s' tr₁ tr₂, TakesTurns rules u s vs s' tr₁ ∧
      Runs rules (.unit u) s' (.hard failure) t tr₂ ∧ tr₁ ++ (.opened s' ++ tr₂) = tr := by
  constructor
  · exact fun h => h.takesTurns_of_hard rfl rfl
  · rintro ⟨vs, s', tr₁, tr₂, hturns, hlast, rfl⟩
    induction hturns with
    | nil =>
      rw [Trace.nil_append]
      exact .turns_hard hlast
    | cons h _ ih =>
      rw [Trace.append_assoc, Trace.append_assoc]
      exact .turns_more_hard h (ih hlast)

/-- A repetition fails hard exactly as its turns do, and reports nothing itself. -/
theorem Grammar.runs_zeroOrMany_hard_iff {failure : Failure} :
    Runs rules (.unit (zeroOrMany u)) s (.hard failure) t tr ↔ ∃ vs s' tr₁ tr₂, TakesTurns rules u s vs s' tr₁ ∧
      Runs rules (.unit u) s' (.hard failure) t tr₂ ∧ tr₁ ++ (.opened s' ++ tr₂) = tr := by
  rw [← runs_turns_hard_iff]
  constructor
  · intro h
    cases h with
    | zeroOrMany_hard h => exact h
  · exact .zeroOrMany_hard

/-- What was done by the time that a job is started in a repetition, or in its unit, was done in a run of matches, and in the attempt that
is under way. The attempt may be one that does not return. -/
theorem Reaches.of_zeroOrMany {job : Job} {before : Trace}
    (h : Reaches rules (fun _ _ => True) (.unit (.zeroOrMany u)) s job s' before) :
    ∃ vs t tr₁, TakesTurns rules u s vs t tr₁ ∧ ((job = .unit (.zeroOrMany u) ∨ job = .turns u) ∧ s' = t ∧ before = tr₁ ∨
      ∃ tr₂, Reaches rules (fun _ _ => True) (.unit u) t job s' tr₂ ∧ before = tr₁ ++ (.opened t ++ tr₂)) := by
  induction h with
  | here => exact ⟨[], s, .nil, .nil, .inl ⟨.inl rfl, rfl, rfl⟩⟩
  | invoke _ hinv _ ih =>
    obtain ⟨vs, t, tr₁, hturns, ⟨rfl | rfl, rfl, rfl⟩ | ⟨tr₂, hreach, rfl⟩⟩ := ih
    · cases hinv with
      | zeroOrMany => exact ⟨vs, _, _, hturns, .inl ⟨.inr rfl, rfl, Trace.append_nil _⟩⟩
    · cases hinv with
      | turns_base => exact ⟨vs, _, _, hturns, .inr ⟨.nil, .here, by rw [Trace.append_nil]⟩⟩
      | turns_more hmatch => exact ⟨_, _, _, hturns.snoc hmatch, .inl ⟨.inr rfl, rfl, rfl⟩⟩
    · exact ⟨vs, t, tr₁, hturns, .inr ⟨_, .invoke hreach hinv trivial, by simp only [Trace.append_assoc]⟩⟩

end

section

variable {σ : Type} [Context σ] [LawfulContext σ] {rules : Rules} {u : Grammar} {s t t' : σ} {o : Outcome Value} {v : Value}
  {vs : List Value} {tr : Trace}

/-- A run of matches stays within the input. -/
theorem TakesTurns.inBounds (h : TakesTurns rules u s vs t tr) (hin : InBounds s) : InBounds t := by
  induction h with
  | nil => exact hin
  | cons h _ ih => exact ih (h.descends.inBounds hin)

/-- The turns return values where the unit fails softly after that run of matches, and go back to where the last match ended. -/
theorem runs_turns_matched_iff (hin : InBounds s) :
    Runs rules (.turns u) s (.matched (.list vs)) t tr ↔ ∃ t' tr₁ tr₂, TakesTurns rules u s vs t tr₁ ∧
      Runs rules (.unit u) t .soft t' tr₂ ∧ tr₁ ++ (.opened t ++ (tr₂ ++ .rewound t)) = tr := by
  constructor
  · intro h
    induction vs generalizing s tr with
    | nil =>
      cases h with
      | turns_stop h hr =>
        obtain rfl := LawfulContext.eq_of_restore h.descends hr
        exact ⟨_, .nil, _, .nil, h, Trace.nil_append _⟩
    | cons v vs ih =>
      cases h with
      | turns_more h hrest =>
        obtain ⟨t', tr₁, tr₂, hturns, hlast, rfl⟩ := ih (h.descends.inBounds hin) hrest
        exact ⟨t', _, tr₂, .cons h hturns, hlast, by simp only [Trace.append_assoc]⟩
  · rintro ⟨t', tr₁, tr₂, hturns, hlast, rfl⟩
    induction hturns with
    | nil =>
      rw [Trace.nil_append]
      exact .turns_stop hlast (LawfulContext.restore_backup hin hlast.descends)
    | cons h _ ih =>
      rw [Trace.append_assoc, Trace.append_assoc]
      exact .turns_more h (ih (h.descends.inBounds hin) hlast)

/-! ## The repetition -/

namespace Grammar

/-- A repetition matches exactly as its turns do, and then reports their number. -/
theorem runs_zeroOrMany_matched_iff (hin : InBounds s) :
    Runs rules (.unit (zeroOrMany u)) s (.matched (.list vs)) t tr ↔ ∃ t' tr₁ tr₂, TakesTurns rules u s vs t tr₁ ∧
      Runs rules (.unit u) t .soft t' tr₂ ∧
      tr₁ ++ (.opened t ++ (tr₂ ++ (.rewound t ++ .event (.repetitionStopped vs.length)))) = tr := by
  constructor
  · intro h
    cases h with
    | zeroOrMany_some h =>
      obtain ⟨t', tr₁, tr₂, hturns, hlast, rfl⟩ := (runs_turns_matched_iff hin).1 h
      exact ⟨t', tr₁, tr₂, hturns, hlast, by simp only [Trace.append_assoc]⟩
  · rintro ⟨t', tr₁, tr₂, hturns, hlast, rfl⟩
    have h := Runs.zeroOrMany_some ((runs_turns_matched_iff hin).2 ⟨t', tr₁, tr₂, hturns, hlast, rfl⟩)
    simpa only [Trace.append_assoc] using h

/-- What a repetition returns it returns after a run of matches, where its unit does not match. -/
theorem exists_takesTurns_of_yields_zeroOrMany (hin : InBounds s) (h : (zeroOrMany u).Yields rules s o t) :
    ∃ vs s' tr o' t', TakesTurns rules u s vs s' tr ∧ u.Yields rules s' o' t' ∧ o'.isMatch = false := by
  obtain ⟨_, h⟩ := yields_zeroOrMany.1 h
  rcases h.turns_outcome with ⟨vs, rfl⟩ | ⟨failure, rfl⟩
  · obtain ⟨t', tr₁, _, hturns, hlast, -⟩ := (runs_turns_matched_iff hin).1 h
    exact ⟨vs, t, tr₁, .soft, t', hturns, hlast.yields, rfl⟩
  · obtain ⟨vs, s', tr₁, _, hturns, hlast, -⟩ := runs_turns_hard_iff.1 h
    exact ⟨vs, s', tr₁, .hard failure, t, hturns, hlast.yields, rfl⟩

/-- Where the unit does not match after a run of matches, the repetition returns. -/
theorem exists_yields_zeroOrMany_of_takesTurns (hin : InBounds s) {s' : σ} (hturns : TakesTurns rules u s vs s' tr)
    (h : u.Yields rules s' o t) (ho : o.isMatch = false) : ∃ o' t', (zeroOrMany u).Yields rules s o' t' := by
  obtain ⟨_, hlast⟩ := yields_iff_runs.1 h
  rcases Outcome.isMatch_eq_false_iff.1 ho with rfl | ⟨failure, rfl⟩
  · exact ⟨_, _, ((runs_zeroOrMany_matched_iff hin).2 ⟨_, _, _, hturns, hlast, rfl⟩).yields⟩
  · exact ⟨_, _, (runs_zeroOrMany_hard_iff.2 ⟨_, _, _, _, hturns, hlast, rfl⟩).yields⟩

/-- A repetition does not return exactly where its unit matches forever, or does not return after a run of matches. -/
theorem not_ends_zeroOrMany_iff (hin : InBounds s) :
    ¬(zeroOrMany u).Ends rules s ↔
      u.MatchesForever rules s ∨ ∃ vs t tr, TakesTurns rules u s vs t tr ∧ ¬u.Ends rules t := by
  rw [ends_iff_yields hin]
  constructor
  · intro hends
    by_cases hstuck : ∃ vs t tr, TakesTurns rules u s vs t tr ∧ ¬u.Ends rules t
    · exact .inr hstuck
    · refine .inl (.of_forall_takesTurns fun vs t tr hturns => ?_)
      have hreturns : u.Ends rules t := by
        by_contra hnot
        exact hstuck ⟨vs, t, tr, hturns, hnot⟩
      obtain ⟨o, t', h⟩ := (ends_iff_yields (hturns.inBounds hin)).1 hreturns
      cases o with
      | matched v => exact ⟨v, t', h⟩
      | soft | hard => exact absurd (exists_yields_zeroOrMany_of_takesTurns hin hturns h rfl) hends
  · rintro (hforever | ⟨vs, t, tr, hturns, hstuck⟩) ⟨o, t₁, h⟩
    · obtain ⟨_, s', _, o', t', hturns, hlast, ho'⟩ := exists_takesTurns_of_yields_zeroOrMany hin h
      obtain ⟨⟨v, rfl⟩, -⟩ := (hforever.after hturns).next hlast
      nomatch ho'
    · obtain ⟨_, hrun⟩ := yields_zeroOrMany.1 h
      obtain ⟨_, _, _, _, hrest, -⟩ := hrun.of_reaches hturns.reaches
      obtain ⟨o', t', _, _, hattempt, -⟩ := hrest.of_invokes .turns_base
      exact hstuck ((ends_iff_yields (hturns.inBounds hin)).2 ⟨o', t', hattempt.yields⟩)

/-- Where a repetition has matched, its unit fails softly. -/
theorem yields_soft_of_zeroOrMany (hin : InBounds s) (h : (zeroOrMany u).Yields rules s (.matched v) t) :
    InBounds t ∧ ∃ t', u.Yields rules t .soft t' := by
  obtain ⟨_, h⟩ := yields_zeroOrMany.1 h
  rcases h.turns_outcome with ⟨vs, hv⟩ | ⟨_, hv⟩
  · cases hv
    obtain ⟨t', _, _, hturns, hlast, -⟩ := (runs_turns_matched_iff hin).1 h
    exact ⟨hturns.inBounds hin, t', hlast.yields⟩
  · nomatch hv

/-- Where the unit fails softly, the repetition takes nothing and returns the empty list. -/
theorem yields_zeroOrMany_of_soft (hin : InBounds s) (h : u.Yields rules s .soft t') :
    (zeroOrMany u).Yields rules s o t ↔ o = .matched (.list []) ∧ t = s := by
  obtain ⟨_, hmiss⟩ := yields_iff_runs.1 h
  have hnone : (zeroOrMany u).Yields rules s (.matched (.list [])) s :=
    ((runs_zeroOrMany_matched_iff hin).2 ⟨_, _, _, .nil, hmiss, rfl⟩).yields
  constructor
  · exact fun h => h.unique hnone
  · rintro ⟨rfl, rfl⟩
    exact hnone

end Grammar

/-- What a repetition that may be empty comes to is decided by the run of matches of its unit.
1. It returns a list exactly where the unit matches the values of the list one after another and then fails softly. It leaves the context
   that the last match left, whatever the attempt after it took, and reports the number of values, once and after all that the unit did.
2. It fails hard exactly where the unit does after such a run of matches. It leaves the context that the unit left, and reports nothing
   itself.
3. It returns nothing else.
4. It does not return exactly where the matches go on without end, or the unit does not return after some of them.
5. So it does not return where a match changes nothing.
6. Whenever a job is started in it, all that was done by then was done in its matches and in the attempt under way, also if it does not
   return; so it reports nothing itself before its end.
7. The same repetition right after a match returns the empty list and changes nothing.
8. A repetition that is followed by its own unit never matches. -/
theorem repetition_is_maximal_run (rules : Rules) (u : Grammar) (hin : InBounds s) :
    (∀ vs t tr, (∃ fuel, ((Grammar.zeroOrMany u).eval rules fuel).run s = .ok ⟨.matched (.list vs), t, tr⟩) ↔
      ∃ t' tr₁ tr₂, TakesTurns rules u s vs t tr₁ ∧ Runs rules (.unit u) t .soft t' tr₂ ∧
        tr₁ ++ (.opened t ++ (tr₂ ++ (.rewound t ++ .event (.repetitionStopped vs.length)))) = tr) ∧
    (∀ failure t tr, (∃ fuel, ((Grammar.zeroOrMany u).eval rules fuel).run s = .ok ⟨.hard failure, t, tr⟩) ↔
      ∃ vs s' tr₁ tr₂, TakesTurns rules u s vs s' tr₁ ∧ Runs rules (.unit u) s' (.hard failure) t tr₂ ∧
        tr₁ ++ (.opened s' ++ tr₂) = tr) ∧
    (∀ o t, (Grammar.zeroOrMany u).Yields rules s o t → (∃ vs, o = .matched (.list vs)) ∨ ∃ failure, o = .hard failure) ∧
    (¬(Grammar.zeroOrMany u).Ends rules s ↔
      u.MatchesForever rules s ∨ ∃ vs t tr, TakesTurns rules u s vs t tr ∧ ¬u.Ends rules t) ∧
    (∀ vs t tr v, TakesTurns rules u s vs t tr → u.Yields rules t (.matched v) t → ¬(Grammar.zeroOrMany u).Ends rules s) ∧
    (∀ job s' before, Reaches rules (fun _ _ => True) (.unit (.zeroOrMany u)) s job s' before →
      ∃ vs t tr₁, TakesTurns rules u s vs t tr₁ ∧ (s' = t ∧ before = tr₁ ∨
        ∃ tr₂, Reaches rules (fun _ _ => True) (.unit u) t job s' tr₂ ∧ before = tr₁ ++ (.opened t ++ tr₂))) ∧
    (∀ v t, (Grammar.zeroOrMany u).Yields rules s (.matched v) t → ∀ o t',
      (Grammar.zeroOrMany u).Yields rules t o t' ↔ o = .matched (.list []) ∧ t' = t) ∧
    ∀ onMissing v t, ¬(Grammar.seq (.zeroOrMany u) u onMissing).Yields rules s (.matched v) t := by
  refine ⟨fun vs t tr => ?_, fun failure t tr => ?_, fun o t h => ?_, Grammar.not_ends_zeroOrMany_iff hin,
    fun vs t tr v hturns hidle => ?_, fun job s' before h => ?_, fun v t h o t' => ?_, fun onMissing v t h => ?_⟩
  · rw [← runs_iff_eval, Grammar.runs_zeroOrMany_matched_iff hin]
  · rw [← runs_iff_eval, Grammar.runs_zeroOrMany_hard_iff]
  · obtain ⟨_, h⟩ := Grammar.yields_zeroOrMany.1 h
    exact h.turns_outcome
  · exact (Grammar.not_ends_zeroOrMany_iff hin).2 (.inl (.of_takesTurns hturns (.of_yields_self hidle)))
  · obtain ⟨vs, t, tr₁, hturns, ⟨-, hplace⟩ | hattempt⟩ := h.of_zeroOrMany
    · exact ⟨vs, t, tr₁, hturns, .inl hplace⟩
    · exact ⟨vs, t, tr₁, hturns, .inr hattempt⟩
  · obtain ⟨hin', _, hmiss⟩ := Grammar.yields_soft_of_zeroOrMany hin h
    exact Grammar.yields_zeroOrMany_of_soft hin' hmiss
  · obtain ⟨_, h⟩ := Grammar.yields_iff_runs.1 h
    cases h with
    | seq_stop _ ho => nomatch ho
    | seq_match hrepeat hmatch =>
      obtain ⟨-, _, hmiss⟩ := Grammar.yields_soft_of_zeroOrMany hin hrepeat.yields
      nomatch (hmatch.yields.unique hmiss).1

end

/-! ### Hasty letters, strict pairs, and a match that takes nothing -/

/-- On `aab` the hasty letter matches twice and then fails softly with the `b` taken, so two values are reported past the second letter, and
repeating it there gives none. On `abac` the strict pair matches once and then fails hard. Where a match takes nothing there is no end. -/
theorem hastyLetter_repeats_maximally :
    (∃ t' tr₁ tr₂, TakesTurns (fun _ => none) hastyLetter (Text.ofString "aab") [.char 'a', .char 'a'] ⟨2, ['b']⟩ tr₁ ∧
      Runs (fun _ => none) (.unit hastyLetter) (⟨2, ['b']⟩ : Text) .soft t' tr₂ ∧
      (tr₁ ++ (.opened (⟨2, ['b']⟩ : Text) ++ (tr₂ ++ (.rewound (⟨2, ['b']⟩ : Text) ++ .event (.repetitionStopped 2))))).toList =
        [.call (.backup 0), .call (.popFront 0), .call (.backup 1), .call (.popFront 1), .call (.backup 2), .call (.popFront 2),
          .call (.restore 2), .event (.repetitionStopped 2)]) ∧
    (Grammar.zeroOrMany hastyLetter).Yields (fun _ => none) (⟨2, ['b']⟩ : Text) (.matched (.list [])) ⟨2, ['b']⟩ ∧
    (∃ vs s' tr₁ tr₂, TakesTurns (fun _ => none) strictPair (Text.ofString "abac") vs s' tr₁ ∧
      Runs (fun _ => none) (.unit strictPair) s' (.hard .unexpected) ⟨4, []⟩ tr₂) ∧
    ¬(Grammar.zeroOrMany (.always (.bool true))).Ends (fun _ => none) (Text.ofString "a") := by
  have hmany : ((Grammar.zeroOrMany hastyLetter).eval (fun _ => none) 4).run (Text.ofString "aab") =
      .ok ⟨.matched (.list [.char 'a', .char 'a']), ⟨2, ['b']⟩, .ofList [.call (.backup 0), .call (.popFront 0), .call (.backup 1),
        .call (.popFront 1), .call (.backup 2), .call (.popFront 2), .call (.restore 2), .event (.repetitionStopped 2)]⟩ := by
    decide +kernel
  have hhard : (Grammar.zeroOrMany strictPair).Yields (fun _ => none) (Text.ofString "abac") (.hard .unexpected) ⟨4, []⟩ :=
    Grammar.yields_of_run 5 (by decide +kernel)
  have hidle : (Grammar.always (.bool true)).Yields (fun _ => none) (Text.ofString "a") (.matched (.bool true)) (Text.ofString "a") :=
    Grammar.yields_of_run 1 (by decide +kernel)
  obtain ⟨hletters, -, -, -, -, -, hsecond, -⟩ := repetition_is_maximal_run (fun _ => none) hastyLetter (s := Text.ofString "aab") trivial
  obtain ⟨-, hpairs, -⟩ := repetition_is_maximal_run (fun _ => none) strictPair (s := Text.ofString "abac") trivial
  obtain ⟨-, -, -, -, hendless, -⟩ :=
    repetition_is_maximal_run (fun _ => none) (.always (.bool true)) (s := Text.ofString "a") trivial
  obtain ⟨t', tr₁, tr₂, hturns, hlast, htrace⟩ := (hletters _ _ _).1 ⟨4, hmany⟩
  obtain ⟨fuel, _, hhard⟩ := hhard
  obtain ⟨vs, s', tr₃, tr₄, hpairsTurns, hpairsLast, -⟩ := (hpairs _ _ _).1 ⟨fuel, hhard⟩
  exact ⟨⟨t', tr₁, tr₂, hturns, hlast, (congrArg Trace.toList htrace).trans (Trace.toList_ofList _)⟩,
    (hsecond _ _ ⟨4, _, hmany⟩ _ _).2 ⟨rfl, rfl⟩, ⟨vs, s', tr₃, tr₄, hpairsTurns, hpairsLast⟩, hendless [] _ _ _ .nil hidle⟩

end Backtrack
