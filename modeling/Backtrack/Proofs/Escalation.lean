import Backtrack.Proofs.Escape
import Backtrack.Proofs.Termination
import Mathlib.Data.List.Chain

/-!
# Escalations and recoveries

Where a committed part is missing a hard failure is made, and reported; where a unit recovers from a hard failure, that is reported
too. Between the two nothing is reported, so in the events of a parse each such failure stands right before its recovery, or at
the very end, and then it is the outcome. Hard failures that are not reported come from leaves, from transformers and from rules
without a definition; where there are none of these, the reports of failures made and recovered from are equally many, but for
the one that the parse ends in.
-/

namespace Backtrack

namespace Event

/-- The failure that the event reports as made for want of a committed part. -/
def escalated? : Event → Option Failure
  | .tailMissed failure | .nextMissed failure => some failure
  | _ => none

/-- The failure that the event reports as recovered from. -/
def recovered? : Event → Option Failure
  | .recovering failure => some failure
  | _ => none

end Event

/-- The failure that an outcome is. -/
def Outcome.failure? {α : Type} : Outcome α → Option Failure
  | .hard failure => some failure
  | .matched _ | .soft => none

/-! ## What a run can report -/

/-- `Reports silent es failure`: a run can report the events `es` and end in the hard failure, or in none; a failure that is not
reported is possible only if `silent`. -/
inductive Reports (silent : Prop) : List Event → Option Failure → Prop where
  /-- Neither a failure nor a recovery is reported. -/
  | plain {es : List Event} : (∀ e ∈ es, e.escalated? = none ∧ e.recovered? = none) → Reports silent es none
  | append {es es' : List Event} {failure : Option Failure} :
      Reports silent es none → Reports silent es' failure → Reports silent (es ++ es') failure
  | escalated {e : Event} {failure : Failure} : e.escalated? = some failure → Reports silent [e] (some failure)
  | recovered {es : List Event} {failure : Failure} :
      Reports silent es (some failure) → Reports silent (es ++ [.recovering failure]) none
  | failed {failure : Failure} : silent → Reports silent [] (some failure)

namespace Reports

variable {silent : Prop} {es es' : List Event} {failure : Option Failure}

theorem nil : Reports silent [] none :=
  .plain nofun

/-- One event that reports neither a failure nor a recovery. -/
theorem single {e : Event} (h : e.escalated? = none ∧ e.recovered? = none) : Reports silent [e] none := by
  refine .plain fun e' he' => ?_
  rw [List.mem_singleton.1 he']
  exact h

/-- Events that end in no failure may be followed by one of no consequence. -/
theorem snoc {e : Event} (h : Reports silent es none) (he : e.escalated? = none ∧ e.recovered? = none) :
    Reports silent (es ++ [e]) none :=
  .append h (.single he)

/-- The event `e'` may follow the event `e`: after a failure only the recovery from it may. -/
def Answers (e e' : Event) : Prop :=
  ∀ failure, e.escalated? = some failure → e' = .recovering failure

/-- Each failure reported is followed by its recovery, or it comes last and is what the run ends in. -/
theorem answered (h : Reports silent es failure) :
    es.IsChain Answers ∧ ∀ e ∈ es.getLast?, ∀ made, e.escalated? = some made → failure = some made := by
  induction h with
  | @plain es hplain =>
    have hnone : ∀ e ∈ es, e.escalated? = none := fun e he => (hplain e he).1
    refine ⟨?_, fun e he made hmade => ?_⟩
    · rw [List.isChain_iff_getElem]
      intro i hi made hmade
      rw [hnone _ (List.getElem_mem _)] at hmade
      nomatch hmade
    · rw [hnone e (List.mem_of_getLast? he)] at hmade
      nomatch hmade
  | @append es es' failure _ _ ih₁ ih₂ =>
    obtain ⟨hchain, hlast⟩ := ih₁
    obtain ⟨hchain', hlast'⟩ := ih₂
    have hnone : ∀ e ∈ es.getLast?, ∀ made, e.escalated? ≠ some made := fun e he made hmade => nomatch hlast e he made hmade
    refine ⟨hchain.append hchain' fun e he e' _ made hmade => absurd hmade (hnone e he made), fun e he made hmade => ?_⟩
    rw [List.getLast?_append, Option.mem_def, Option.or_eq_some_iff] at he
    rcases he with he | ⟨-, he⟩
    · exact hlast' e he made hmade
    · exact absurd hmade (hnone e he made)
  | @escalated e failure hfailure =>
    refine ⟨.singleton e, fun e' he made hmade => ?_⟩
    rw [List.getLast?_singleton, Option.mem_def, Option.some.injEq] at he
    rw [← hfailure, he, hmade]
  | @recovered es failure _ ih =>
    obtain ⟨hchain, hlast⟩ := ih
    refine ⟨hchain.append (.singleton _) fun e he e' he' made hmade => ?_, fun e he made hmade => ?_⟩
    · cases he'
      cases hlast e he made hmade
      rfl
    · rw [List.getLast?_append, List.getLast?_singleton, Option.some_or] at he
      cases he
      nomatch hmade
  | failed => exact ⟨.nil, nofun⟩

/-- The same, place by place. -/
theorem answered_at (h : Reports silent es failure) {i : Nat} {e : Event} {made : Failure} (he : es[i]? = some e)
    (hmade : e.escalated? = some made) :
    es[i + 1]? = some (.recovering made) ∨ i + 1 = es.length ∧ failure = some made := by
  obtain ⟨hchain, hlast⟩ := h.answered
  obtain ⟨hi, rfl⟩ := List.getElem?_eq_some_iff.1 he
  by_cases hnext : i + 1 < es.length
  · left
    have hanswer : es[i + 1] = .recovering made := List.isChain_iff_getElem.1 hchain i hnext made hmade
    rw [List.getElem?_eq_getElem hnext, hanswer]
  · right
    have hlength : i + 1 = es.length := by omega
    refine ⟨hlength, hlast es[i] ?_ made hmade⟩
    rw [Option.mem_def, List.getLast?_eq_getElem?, ← hlength]
    exact he

/-- Without silent failures, as many failures are reported as recoveries, and one more if the run ends in one. -/
theorem balanced (hloud : ¬ silent) (h : Reports silent es failure) :
    es.countP (·.escalated?.isSome) = es.countP (·.recovered?.isSome) + failure.toList.length := by
  induction h with
  | @plain es hplain =>
    have hescalated : es.countP (·.escalated?.isSome) = 0 := by
      rw [List.countP_eq_zero]
      intro e he
      simp [(hplain e he).1]
    have hrecovered : es.countP (·.recovered?.isSome) = 0 := by
      rw [List.countP_eq_zero]
      intro e he
      simp [(hplain e he).2]
    rw [hescalated, hrecovered]
    rfl
  | append _ _ ih₁ ih₂ =>
    rw [List.countP_append, List.countP_append, ih₁, ih₂, Option.toList_none, List.length_nil]
    omega
  | @escalated e failure hfailure =>
    have hrecovered : e.recovered? = none := by
      cases e <;> first | rfl | nomatch hfailure
    simp [hfailure, hrecovered]
  | recovered _ ih =>
    rw [List.countP_append, List.countP_append, ih]
    rfl
  | failed hsilent => exact absurd hsilent hloud

end Reports

/-! ## What actions report -/

/-- A context that reports nothing but its moves. -/
class MovingContext (σ : Type) [Context σ] : Prop where
  eq_advance_of_mem {s : σ} {e : Event} : e ∈ Context.popEvents s → ∃ pos, e = .advance pos

instance {ι : Type} [Item ι] : MovingContext (Suffix ι) where
  eq_advance_of_mem h := nomatch h

instance {ι : Type} [Item ι] : MovingContext (Cursor ι) where
  eq_advance_of_mem {c e} h := by
    simp only [Context.popEvents, Cursor.advanceEvents] at h
    split at h
    · nomatch h
    · exact ⟨c.pos, List.mem_singleton.1 h⟩

namespace Trace

variable {σ : Type} [Context σ]

@[simp] theorem events_opened (s : σ) : (opened s).events = [] := rfl

@[simp] theorem events_rewound (s : σ) : (rewound s).events = [] := rfl

@[simp] theorem events_event (e : Event) : (event e).events = [e] := rfl

end Trace

section

variable {σ : Type} [Context σ]

/-- An action reports moves only. -/
theorem Action.reports [MovingContext σ] {α : Type} {silent : Prop} {f : Action α} {s t : σ} {a : α} {tr : Trace}
    (h : f.run.run s = .ok ⟨a, t, tr⟩) : Reports silent tr.events none := by
  induction f generalizing s tr with
  | done a =>
    obtain ⟨-, -, rfl⟩ := Engine.run_pure_eq_ok.1 h
    exact .nil
  | front k ih | remaining k ih =>
    obtain ⟨item, s', tr₁, hcall, tr₂, hrest, rfl⟩ := Engine.run_bind_eq_ok.1 h
    cases hcall
    rw [Trace.events_append]
    exact .append .nil (ih _ hrest)
  | popFront k ih =>
    obtain ⟨item, s', tr₁, hcall, tr₂, hrest, rfl⟩ := Engine.run_bind_eq_ok.1 h
    cases hcall
    rw [Trace.events_append, Trace.events_call_events]
    refine .append (.plain fun e he => ?_) (ih _ hrest)
    obtain ⟨pos, rfl⟩ := MovingContext.eq_advance_of_mem he
    exact ⟨rfl, rfl⟩

/-- The predicate leaf does not fail hard. -/
theorem Parser.failure?_pop {pred : Value → Bool} {s t : σ} {o : Outcome Value} {tr : Trace}
    (h : (Parser.pop pred).run s = .ok ⟨o, t, tr⟩) : o.failure? = none := by
  obtain ⟨item, s₁, tr₁, -, tr₂, hrest, -⟩ := Engine.run_bind_eq_ok.1 h
  cases item with
  | none =>
    obtain ⟨rfl, -, -⟩ := Engine.run_pure_eq_ok.1 hrest
    rfl
  | some v =>
    dsimp only at hrest
    split at hrest
    · obtain ⟨item, s₂, tr₂, -, tr₃, hrest, -⟩ := Engine.run_bind_eq_ok.1 hrest
      obtain ⟨rfl, -, -⟩ := Engine.run_pure_eq_ok.1 hrest
      cases item <;> rfl
    · obtain ⟨rfl, -, -⟩ := Engine.run_pure_eq_ok.1 hrest
      rfl

/-- The predicate leaf reports moves only. -/
theorem Parser.pop_reports [MovingContext σ] {silent : Prop} {pred : Value → Bool} {s t : σ} {o : Outcome Value} {tr : Trace}
    (h : (Parser.pop pred).run s = .ok ⟨o, t, tr⟩) : Reports silent tr.events o.failure? := by
  rw [Parser.failure?_pop h]
  rw [Parser.pop_eq_run] at h
  exact Action.reports h

end

/-! ## What runs report -/

section

variable {σ : Type} [Context σ] {rules : Rules} {job job' : Job} {s s' t : σ} {o : Outcome Value} {n : Nat} {before tr : Trace}
  {silent : Prop}

/-- The job, started in the context, makes a hard failure itself and does not report it: a leaf or a transformer fails hard, or
the rule of a link has no definition. -/
inductive FailsSilently (rules : Rules) : Job → σ → Prop where
  | leaf {f : Action (Outcome Value)} {s t : σ} {failure : Failure} {tr : Trace} :
      f.run.run s = .ok ⟨.hard failure, t, tr⟩ → FailsSilently rules (.unit (.apply f)) s
  | transformer {f : Value → Action (Except Failure Value)} {a : Grammar} {s t u : σ} {v : Value} {failure : Failure}
      {tr₁ tr₂ : Trace} :
      Runs rules (.unit a) s (.matched v) t tr₁ → (f v).run.run t = .ok ⟨.error failure, u, tr₂⟩ →
      FailsSilently rules (.unit (.transform f a)) s
  | unbound {l : Link} {s : σ} : rules l.rule = none → FailsSilently rules (.unit (.link l)) s

namespace Reports

variable {u : σ} {tr₁ tr₂ tr₃ : Trace} {e : Event} {failure : Option Failure}

/-- A place that is remembered is not reported. -/
theorem opened (h : Reports silent tr.events failure) : Reports silent (.opened s ++ tr).events failure := by
  rwa [Trace.events_append, Trace.events_opened, List.nil_append]

/-- A return is not reported either. -/
theorem rewound (h : Reports silent tr.events failure) : Reports silent (tr ++ .rewound u).events failure := by
  rwa [Trace.events_append, Trace.events_rewound, List.append_nil]

/-- Two parts in turn, of which the first ends in no failure. -/
theorem two (h₁ : Reports silent tr₁.events none) (h₂ : Reports silent tr₂.events failure) :
    Reports silent (tr₁ ++ tr₂).events failure := by
  rw [Trace.events_append]
  exact .append h₁ h₂

/-- A part that ends in no failure, and a report of no consequence. -/
theorem reported (h : Reports silent tr.events none) (he : e.escalated? = none ∧ e.recovered? = none) :
    Reports silent (tr ++ .event e).events none := by
  rw [Trace.events_append, Trace.events_event]
  exact h.snoc he

/-- A part that is given up, with a report of no consequence, and what is tried in its place. -/
theorem missed (h₁ : Reports silent tr₁.events none) (he : e.escalated? = none ∧ e.recovered? = none)
    (h₂ : Reports silent tr₂.events failure) :
    Reports silent (.opened s ++ (tr₁ ++ (.event e ++ (.rewound u ++ tr₂)))).events failure := by
  simp only [Trace.events_append, Trace.events_opened, Trace.events_rewound, Trace.events_event, List.nil_append]
  exact .append h₁ (.append (.single he) h₂)

/-- A part that fails hard, the report that this is recovered from, and the fallback. -/
theorem fallback {failed : Failure} (h₁ : Reports silent tr₁.events (some failed)) (h₂ : Reports silent tr₂.events failure) :
    Reports silent (.opened s ++ (tr₁ ++ (.event (.recovering failed) ++ (.rewound u ++ tr₂)))).events failure := by
  simp only [Trace.events_append, Trace.events_opened, Trace.events_rewound, Trace.events_event, List.nil_append]
  rw [← List.append_assoc]
  exact .append (.recovered h₁) h₂

/-- A committed part that is missing, the failure made for it, and its report. -/
theorem escalation {made : Failure} (h₁ : Reports silent tr₁.events none) (h₂ : Reports silent tr₂.events none)
    (h₃ : Reports silent tr₃.events none) (he : e.escalated? = some made) :
    Reports silent (tr₁ ++ (tr₂ ++ (tr₃ ++ .event e))).events (some made) := by
  simp only [Trace.events_append, Trace.events_event]
  exact .append h₁ (.append h₂ (.append h₃ (.escalated he)))

/-- A part that ends in no failure of its own, and then in one that is not reported. -/
theorem silently {made : Failure} (h : Reports silent tr.events none) (hsilent : silent) :
    Reports silent tr.events (some made) := by
  rw [← List.append_nil tr.events]
  exact .append h (.failed hsilent)

end Reports

variable [MovingContext σ]

/-- Every run reports as it can, where what it comes to fails silently only if `silent`. -/
theorem Runs.reports (h : Runs rules job s o t tr)
    (hloud : Throughout rules (fun job' s' => FailsSilently rules job' s' → silent) job s) :
    Reports silent tr.events o.failure? := by
  induction h with
  | pop h => exact Parser.pop_reports h
  | @apply f s t o tr h =>
    cases o with
    | matched | soft => exact Action.reports h
    | hard failure => exact .silently (Action.reports h) (hloud.here (.leaf h))
  | seq_stop _ _ ih => exact ih (hloud.of_invokes .seq_head)
  | seq_match h₁ _ ih₁ ih₂ | seq_hard h₁ _ ih₁ ih₂ =>
    exact .two (ih₁ (hloud.of_invokes .seq_head)) (ih₂ (hloud.of_invokes (.seq_tail h₁)))
  | seq_escalate h₁ _ hf ih₁ ih₂ =>
    exact .escalation (ih₁ (hloud.of_invokes .seq_head)) (ih₂ (hloud.of_invokes (.seq_tail h₁))) (Action.reports hf) rfl
  | bind_stop _ _ ih => exact .opened (ih (hloud.of_invokes .bind_base))
  | bind_go h₁ _ _ ih₁ ih₂ =>
    exact .opened (.two (ih₁ (hloud.of_invokes .bind_base)) (ih₂ (hloud.of_invokes (.bind_next h₁))))
  | bind_back h₁ _ _ ih₁ ih₂ =>
    exact .opened (.two (ih₁ (hloud.of_invokes .bind_base)) (.rewound (ih₂ (hloud.of_invokes (.bind_next h₁)))))
  | choose_first _ _ ih => exact .opened (ih (hloud.of_invokes .choose_first))
  | choose_second h₁ hr _ ih₁ ih₂ =>
    exact .missed (ih₁ (hloud.of_invokes .choose_first)) ⟨rfl, rfl⟩ (ih₂ (hloud.of_invokes (.choose_second h₁ hr)))
  | oneOf _ ih => exact ih (hloud.of_invokes .oneOf)
  | candidates_none => exact .nil
  | candidates_here _ _ ih => exact .opened (ih (hloud.of_invokes .candidates_here))
  | candidates_next h₁ hr _ ih₁ ih₂ =>
    exact .missed (ih₁ (hloud.of_invokes .candidates_here)) ⟨rfl, rfl⟩ (ih₂ (hloud.of_invokes (.candidates_next h₁ hr)))
  | rescue_primary _ ih => exact .opened (ih (hloud.of_invokes .rescue_primary))
  | rescue_missed h₁ hr _ ih₁ ih₂ =>
    exact .missed (ih₁ (hloud.of_invokes .rescue_primary)) ⟨rfl, rfl⟩ (ih₂ (hloud.of_invokes (.rescue_missed h₁ hr)))
  | rescue_recover h₁ hr _ ih₁ ih₂ =>
    exact .fallback (ih₁ (hloud.of_invokes .rescue_primary)) (ih₂ (hloud.of_invokes (.rescue_recover h₁ hr)))
  | maybe_present _ ih | maybe_hard _ ih => exact .opened (ih (hloud.of_invokes .maybe))
  | maybe_absent _ _ ih => exact .opened (.rewound (ih (hloud.of_invokes .maybe)))
  | maybeThen_stop _ ih => exact ih (hloud.of_invokes .maybeThen_before)
  | maybeThen_match h₁ _ ih₁ ih₂ | maybeThen_hard h₁ _ ih₁ ih₂ | maybeThen_absent h₁ _ ih₁ ih₂ =>
    exact .two (ih₁ (hloud.of_invokes .maybeThen_before)) (ih₂ (hloud.of_invokes (.maybeThen_next h₁)))
  | maybeThen_escalate h₁ _ hf ih₁ ih₂ =>
    have hnext := ih₂ (hloud.of_invokes (.maybeThen_next h₁))
    exact .escalation (ih₁ (hloud.of_invokes .maybeThen_before)) hnext (Action.reports hf) rfl
  | turns_stop _ _ ih => exact .opened (.rewound (ih (hloud.of_invokes .turns_base)))
  | turns_hard _ ih => exact .opened (ih (hloud.of_invokes .turns_base))
  | turns_more h₁ _ ih₁ ih₂ | turns_more_hard h₁ _ ih₁ ih₂ =>
    exact .opened (.two (ih₁ (hloud.of_invokes .turns_base)) (ih₂ (hloud.of_invokes (.turns_more h₁))))
  | oneOrMany_none _ ih | oneOrMany_some _ ih => exact .reported (ih (hloud.of_invokes .oneOrMany)) ⟨rfl, rfl⟩
  | oneOrMany_hard _ ih => exact ih (hloud.of_invokes .oneOrMany)
  | zeroOrMany_some _ ih => exact .reported (ih (hloud.of_invokes .zeroOrMany)) ⟨rfl, rfl⟩
  | zeroOrMany_hard _ ih => exact ih (hloud.of_invokes .zeroOrMany)
  | map_match _ ih => exact ih (hloud.of_invokes .map)
  | map_stop _ _ ih => exact ih (hloud.of_invokes .map)
  | transform_stop _ _ ih => exact ih (hloud.of_invokes .transform)
  | transform_match _ hf ih => exact .two (ih (hloud.of_invokes .transform)) (Action.reports hf)
  | transform_hard h₁ hf ih =>
    exact .two (ih (hloud.of_invokes .transform)) (.silently (Action.reports hf) (hloud.here (.transformer h₁ hf)))
  | wrap _ ih => exact ih (hloud.of_invokes .wrap)
  | link hbody _ ih => exact ih (hloud.of_invokes (.link hbody))
  | link_unbound hnone => exact .failed (hloud.here (.unbound hnone))

/-- What a run can report in any case. -/
theorem Runs.reports_any (h : Runs rules job s o t tr) : Reports True tr.events o.failure? :=
  h.reports fun _ _ _ _ _ => trivial

/-- What a job has reported when it starts another ends in no failure: the failures that it goes on after are recovered from. -/
theorem Invokes.reports (h : Invokes rules job s n job' s' before) : Reports True before.events none := by
  cases h with
  | seq_tail h | maybeThen_next h => exact h.reports_any
  | bind_next h | turns_more h =>
    rw [Trace.events_append]
    exact .append .nil h.reports_any
  | choose_second h | candidates_next h | rescue_missed h =>
    simp only [Trace.events_append, Trace.events_opened, Trace.events_rewound, Trace.events_event, List.nil_append, List.append_nil]
    exact h.reports_any.snoc ⟨rfl, rfl⟩
  | rescue_recover h =>
    simp only [Trace.events_append, Trace.events_opened, Trace.events_rewound, Trace.events_event, List.nil_append, List.append_nil]
    exact .recovered h.reports_any
  | _ => exact .nil

/-- So does all that a run has reported when it comes to some job. -/
theorem Reaches.reports {through : Job → Nat → Prop} (h : Reaches rules through job s job' s' before) :
    Reports True before.events none := by
  induction h with
  | here => exact .nil
  | invoke _ hinv _ ih =>
    rw [Trace.events_append]
    exact .append ih hinv.reports

end

/-- In the events of a parse, a failure reported as made for want of a committed part is followed at once by the report that the
same failure, with the same text, is recovered from; or it is the last event, and the parse ends in that failure. If no leaf and
no transformer that the parse comes to fails hard, and every rule that it comes to has a definition, the reports of such failures
are as many as those of recoveries, and one more if the parse ends in a hard failure. And in a parse that does not end, each such
failure is recovered from at once. -/
theorem escalations_answered {σ : Type} [Context σ] [MovingContext σ] (rules : Rules) (g : Grammar) (s : σ) :
    (∀ fuel o t tr, (g.eval rules fuel).run s = .ok ⟨o, t, tr⟩ →
      (∀ i e failure, tr.events[i]? = some e → e.escalated? = some failure →
        tr.events[i + 1]? = some (.recovering failure) ∨ i + 1 = tr.events.length ∧ o = .hard failure) ∧
      ((∀ job s' before, Reaches rules (fun _ _ => True) (.unit g) s job s' before → ¬ FailsSilently rules job s') →
        (tr.events.countP (·.escalated?.isSome) : Int) - tr.events.countP (·.recovered?.isSome) = if o.isHard then 1 else 0)) ∧
    ∀ job s' before, Reaches rules (fun _ _ => True) (.unit g) s job s' before →
      ∀ i e failure, before.events[i]? = some e → e.escalated? = some failure →
        before.events[i + 1]? = some (.recovering failure) := by
  refine ⟨fun fuel o t tr heval => ⟨fun i e failure he hmade => ?_, fun hloud => ?_⟩,
    fun job s' before hreach i e failure he hmade => ?_⟩
  · have hrun : Runs rules (.unit g) s o t tr := runs_iff_eval.2 ⟨fuel, heval⟩
    refine (hrun.reports_any.answered_at he hmade).imp_right fun ⟨hlast, ho⟩ => ⟨hlast, ?_⟩
    cases o <;> cases ho
    rfl
  · have hrun : Runs rules (.unit g) s o t tr := runs_iff_eval.2 ⟨fuel, heval⟩
    have hbalance := (hrun.reports hloud).balanced id
    have hends : (o.failure?.toList.length : Int) = if o.isHard then 1 else 0 := by cases o <;> rfl
    rw [← hends]
    omega
  · rcases hreach.reports.answered_at he hmade with hnext | ⟨-, hnone⟩
    · exact hnext
    · nomatch hnone

/-! ### A pair that is recovered from, and a letter that is missing -/

/-- The pair, or any item where the pair is malformed, and then the letter `b`. -/
def lenientPairThen : Grammar :=
  .seq lenientPair (.pop (· == .char 'b')) (.done .unexpected)

theorem lenientPairThen_part : PairPart lenientPairThen :=
  .strict _ (.recovering (.optional (.strict _ (.item _) (.item _))) (.item _)) (.item _)

/-- Nothing in the pair fails without a report. -/
theorem lenientPairThen_loud {job : Job} {s s' : Cursor Char} {before : Trace}
    (hreach : Reaches (fun _ => none) (fun _ _ => True) (.unit lenientPairThen) s job s' before) :
    ¬ FailsSilently (fun _ => none) job s' := by
  intro hfails
  cases hfails with
  | @leaf f =>
    have hpart : PairPart (.apply f) := lenientPairThen_part.of_part (hreach.holds nofun .refl)
    nomatch hpart
  | @transformer f a =>
    have hpart : PairPart (.transform f a) := lenientPairThen_part.of_part (hreach.holds nofun .refl)
    nomatch hpart
  | @unbound l =>
    have hpart : PairPart (.link l) := lenientPairThen_part.of_part (hreach.holds nofun .refl)
    nomatch hpart

/-- On `ac` the pair is malformed, which is recovered from; then `b` is missing, and the parse ends in that failure. -/
theorem lenientPairThen_answered :
    ∃ t tr, (lenientPairThen.eval (fun _ => none) 6).run (⟨#['a', 'c'], 0⟩ : Cursor Char) = .ok ⟨.hard .unexpected, t, tr⟩ ∧
      tr.events = [.advance 0, .advance 1, .tailMissed .unexpected, .recovering .unexpected, .advance 0, .tailMissed .unexpected] ∧
      tr.events[3]? = some (.recovering .unexpected) ∧
      (tr.events.countP (·.escalated?.isSome) : Int) - tr.events.countP (·.recovered?.isSome) = 1 := by
  have hrun : ((lenientPairThen.eval (fun _ => none) 6).run (⟨#['a', 'c'], 0⟩ : Cursor Char)).toOption.map
      (fun r => (r.value, r.trace.events)) = some (.hard .unexpected,
        [.advance 0, .advance 1, .tailMissed .unexpected, .recovering .unexpected, .advance 0, .tailMissed .unexpected]) := by
    decide +kernel
  obtain ⟨_, t, tr, heval, hread⟩ := Engine.exists_report hrun
  obtain ⟨rfl, hevents⟩ := Prod.mk.inj hread
  obtain ⟨hanswered, hbalance⟩ := (escalations_answered (fun _ => none) lenientPairThen _).1 6 _ _ _ heval
  refine ⟨t, tr, heval, hevents, ?_, hbalance fun job s' before hreach => lenientPairThen_loud hreach⟩
  refine (hanswered 2 (.tailMissed .unexpected) .unexpected ?_ rfl).resolve_right ?_
  · rw [hevents]
    rfl
  · rw [hevents]
    simp

end Backtrack
