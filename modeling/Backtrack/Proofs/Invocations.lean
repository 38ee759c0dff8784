import Backtrack.Proofs.Adequacy
import Backtrack.Proofs.Lawful
import Backtrack.Proofs.Parts

/-!
# Invocations

While a unit runs it starts other units, one after another, and these start others in turn. `Invokes` says which job a job
starts itself, in which context, and what it did until then; `Reaches` follows such steps to any depth. Both also speak of
runs that never end, since an invocation is there as soon as those before it have ended.
-/

namespace Backtrack

section

variable {σ : Type} [Context σ]

/-- `Invokes rules job s n job' s' before`: started in the context `s`, the job itself starts `job'` in the context `s'`, having
started `n` others by then and done what `before` records. -/
inductive Invokes (rules : Rules) : Job → σ → Nat → Job → σ → Trace → Prop where
  | seq_head {a b : Grammar} {onMissing : Action Failure} {s : σ} :
      Invokes rules (.unit (.seq a b onMissing)) s 0 (.unit a) s .nil
  | seq_tail {a b : Grammar} {onMissing : Action Failure} {s t : σ} {v : Value} {tr : Trace} :
      Runs rules (.unit a) s (.matched v) t tr → Invokes rules (.unit (.seq a b onMissing)) s 1 (.unit b) t tr
  | bind_base {a : Grammar} {next : Value → Grammar} {held : List RuleId} {s : σ} :
      Invokes rules (.unit (.bind a next held)) s 0 (.unit a) s (.opened s)
  | bind_next {a : Grammar} {next : Value → Grammar} {held : List RuleId} {s t : σ} {v : Value} {tr : Trace} :
      Runs rules (.unit a) s (.matched v) t tr →
      Invokes rules (.unit (.bind a next held)) s 1 (.unit (next v)) t (.opened s ++ tr)
  | choose_first {a b : Grammar} {s : σ} : Invokes rules (.unit (.choose a b)) s 0 (.unit a) s (.opened s)
  | choose_second {a b : Grammar} {s t u : σ} {tr : Trace} :
      Runs rules (.unit a) s .soft t tr → Context.restore t (Context.backup s) = .ok u →
      Invokes rules (.unit (.choose a b)) s 1 (.unit b) u
        (.opened s ++ (tr ++ (.event .firstAlternativeMissed ++ .rewound u)))
  | oneOf {gs : List Grammar} {s : σ} : Invokes rules (.unit (.oneOf gs)) s 0 (.candidates 0 gs) s .nil
  | candidates_here {index : Nat} {g : Grammar} {gs : List Grammar} {s : σ} :
      Invokes rules (.candidates index (g :: gs)) s 0 (.unit g) s (.opened s)
  | candidates_next {index : Nat} {g : Grammar} {gs : List Grammar} {s t u : σ} {tr : Trace} :
      Runs rules (.unit g) s .soft t tr → Context.restore t (Context.backup s) = .ok u →
      Invokes rules (.candidates index (g :: gs)) s 1 (.candidates (index + 1) gs) u
        (.opened s ++ (tr ++ (.event (.alternativeMissed index) ++ .rewound u)))
  | rescue_primary {a b : Grammar} {s : σ} : Invokes rules (.unit (.rescue a b)) s 0 (.unit a) s (.opened s)
  | rescue_missed {a b : Grammar} {s t u : σ} {tr : Trace} :
      Runs rules (.unit a) s .soft t tr → Context.restore t (Context.backup s) = .ok u →
      Invokes rules (.unit (.rescue a b)) s 1 (.unit b) u (.opened s ++ (tr ++ (.event .primaryMissed ++ .rewound u)))
  | rescue_recover {a b : Grammar} {s t u : σ} {failure : Failure} {tr : Trace} :
      Runs rules (.unit a) s (.hard failure) t tr → Context.restore t (Context.backup s) = .ok u →
      Invokes rules (.unit (.rescue a b)) s 1 (.unit b) u
        (.opened s ++ (tr ++ (.event (.recovering failure) ++ .rewound u)))
  | maybe {a : Grammar} {s : σ} : Invokes rules (.unit (.maybe a)) s 0 (.unit a) s (.opened s)
  | maybeThen_before {a b : Grammar} {onMissing : Action Failure} {s : σ} :
      Invokes rules (.unit (.maybeThen a b onMissing)) s 0 (.unit (.maybe a)) s .nil
  | maybeThen_next {a b : Grammar} {onMissing : Action Failure} {s t : σ} {before : Value} {tr : Trace} :
      Runs rules (.unit (.maybe a)) s (.matched before) t tr →
      Invokes rules (.unit (.maybeThen a b onMissing)) s 1 (.unit b) t tr
  | turns_base {a : Grammar} {s : σ} : Invokes rules (.turns a) s 0 (.unit a) s (.opened s)
  | turns_more {a : Grammar} {s t : σ} {v : Value} {tr : Trace} :
      Runs rules (.unit a) s (.matched v) t tr → Invokes rules (.turns a) s 1 (.turns a) t (.opened s ++ tr)
  | oneOrMany {a : Grammar} {s : σ} : Invokes rules (.unit (.oneOrMany a)) s 0 (.turns a) s .nil
  | zeroOrMany {a : Grammar} {s : σ} : Invokes rules (.unit (.zeroOrMany a)) s 0 (.turns a) s .nil
  | map {f : Value → Value} {a : Grammar} {s : σ} : Invokes rules (.unit (.map f a)) s 0 (.unit a) s .nil
  | transform {f : Value → Action (Except Failure Value)} {a : Grammar} {s : σ} :
      Invokes rules (.unit (.transform f a)) s 0 (.unit a) s .nil
  | wrap {how : Wrapper} {a : Grammar} {s : σ} : Invokes rules (.unit (.wrap how a)) s 0 (.unit a) s .nil
  | link {l : Link} {body : Grammar} {s : σ} :
      rules l.rule = some body → Invokes rules (.unit (.link l)) s 0 (.unit body) s .nil

/-- `Reaches rules through job s job' s' before`: the job `job'`, started in the context `s'`, is come to from `job`, started in
`s`, by invocations of which each is the `n`-th of a job with `through job n`; `before` is all that was done until then. -/
inductive Reaches (rules : Rules) (through : Job → Nat → Prop) (job : Job) (s : σ) : Job → σ → Trace → Prop where
  | here : Reaches rules through job s job s .nil
  | invoke {job₁ job₂ : Job} {s₁ s₂ : σ} {n : Nat} {before tr : Trace} :
      Reaches rules through job s job₁ s₁ before → Invokes rules job₁ s₁ n job₂ s₂ tr → through job₁ n →
      Reaches rules through job s job₂ s₂ (before ++ tr)

/-- What is come to from a job that is started is come to from the job that starts it. -/
theorem Reaches.of_invokes {rules : Rules} {through : Job → Nat → Prop} {job job₁ job₂ : Job} {s s₁ s₂ : σ} {n : Nat}
    {before tr : Trace} (h : Reaches rules through job₁ s₁ job₂ s₂ tr) (hinv : Invokes rules job s n job₁ s₁ before)
    (hn : through job n) : Reaches rules through job s job₂ s₂ (before ++ tr) := by
  induction h with
  | here =>
    rw [Trace.append_nil, ← Trace.nil_append before]
    exact .invoke .here hinv hn
  | invoke _ hinv' hn' ih =>
    rw [← Trace.append_assoc]
    exact .invoke ih hinv' hn'

/-- `Throughout rules P job s`: the job, started in the context `s`, and all that it comes to satisfy `P`. -/
def Throughout (rules : Rules) (P : Job → σ → Prop) (job : Job) (s : σ) : Prop :=
  ∀ job' s' before, Reaches rules (fun _ _ => True) job s job' s' before → P job' s'

namespace Throughout

variable {rules : Rules} {P : Job → σ → Prop} {job job' : Job} {s s' : σ}

/-- What holds throughout holds at the start. -/
theorem here (h : Throughout rules P job s) : P job s :=
  h job s .nil .here

/-- What holds throughout holds throughout what a job starts. -/
theorem of_invokes {n : Nat} {before : Trace} (h : Throughout rules P job s) (hinv : Invokes rules job s n job' s' before) :
    Throughout rules P job' s' :=
  fun job₁ s₁ before₁ hreach => h job₁ s₁ (before ++ before₁) (hreach.of_invokes hinv trivial)

end Throughout

/-! ## Invocations in a run that ends -/

namespace Trace

/-- A trace is a part of itself, with nothing before and nothing after. -/
theorem eq_whole (t : Trace) : t = .nil ++ (t ++ .nil) := by
  rw [append_nil, nil_append]

/-- The end of a trace is a part of it with nothing after. -/
theorem eq_last (t u : Trace) : t ++ u = t ++ (u ++ .nil) := by
  rw [append_nil]

end Trace

/-- The trace records a run of the job from the context `s`, after what `before` records. -/
def Includes (rules : Rules) (tr : Trace) (job : Job) (s : σ) (before : Trace) : Prop :=
  ∃ o t tr' after, Runs rules job s o t tr' ∧ tr = before ++ (tr' ++ after)

section

variable {rules : Rules} {a b g : Grammar} {gs : List Grammar} {s t u w : σ} {v : Value} {o : Outcome Value} {tr before : Trace}

namespace Includes

variable {job : Job} {after : Trace}

/-- The run stands between what was done before and what was done after. -/
theorem of_run (h : Runs rules job s o t tr) : Includes rules (before ++ (tr ++ after)) job s before :=
  ⟨o, t, tr, after, h, rfl⟩

/-- Nothing was done after the run. -/
theorem of_last (h : Runs rules job s o t tr) : Includes rules (before ++ tr) job s before :=
  ⟨o, t, tr, .nil, h, Trace.eq_last _ _⟩

/-- Nothing was done before the run. -/
theorem of_first (h : Runs rules job s o t tr) : Includes rules (tr ++ after) job s .nil :=
  ⟨o, t, tr, after, h, (Trace.nil_append _).symm⟩

/-- Nothing else was done. -/
theorem of_whole (h : Runs rules job s o t tr) : Includes rules tr job s .nil :=
  ⟨o, t, tr, .nil, h, Trace.eq_whole _⟩

end Includes

namespace Runs

/-! ### Sequences -/

section

variable {onMissing : Action Failure} {next : Value → Grammar} {held : List RuleId}

/-- A sequence starts its head first of all. -/
theorem includes_seq_head (h : Runs rules (.unit (.seq a b onMissing)) s o t tr) : Includes rules tr (.unit a) s .nil := by
  cases h with
  | seq_stop h _ => exact .of_whole h
  | seq_match h _ | seq_hard h _ => exact .of_first h
  | seq_escalate h _ _ => exact .of_first h

/-- A sequence starts its tail where the head has matched. -/
theorem includes_seq_tail (h : Runs rules (.unit (.seq a b onMissing)) s o t tr)
    (hhead : Runs rules (.unit a) s (.matched v) u before) : Includes rules tr (.unit b) u before := by
  cases h with
  | seq_stop h ho =>
    obtain ⟨rfl, -, -⟩ := hhead.unique h
    nomatch ho
  | seq_match h₁ h₂ | seq_hard h₁ h₂ =>
    obtain ⟨-, rfl, rfl⟩ := hhead.unique h₁
    exact .of_last h₂
  | seq_escalate h₁ h₂ _ =>
    obtain ⟨-, rfl, rfl⟩ := hhead.unique h₁
    exact .of_run h₂

/-- A selection remembers the place, and starts its first unit. -/
theorem includes_bind_base (h : Runs rules (.unit (.bind a next held)) s o t tr) :
    Includes rules tr (.unit a) s (.opened s) := by
  cases h with
  | bind_stop h _ => exact .of_last h
  | bind_go h _ _ | bind_back h _ _ => exact .of_run h

/-- A selection starts the selected unit where the first one has matched. -/
theorem includes_bind_next (h : Runs rules (.unit (.bind a next held)) s o t tr)
    (hbase : Runs rules (.unit a) s (.matched v) u before) :
    Includes rules tr (.unit (next v)) u (.opened s ++ before) := by
  cases h with
  | bind_stop h ho =>
    obtain ⟨rfl, -, -⟩ := hbase.unique h
    nomatch ho
  | bind_go h₁ h₂ _ =>
    obtain ⟨⟨⟩, rfl, rfl⟩ := hbase.unique h₁
    rw [← Trace.append_assoc]
    exact .of_last h₂
  | bind_back h₁ h₂ _ =>
    obtain ⟨⟨⟩, rfl, rfl⟩ := hbase.unique h₁
    rw [← Trace.append_assoc]
    exact .of_run h₂

/-- An optional part comes first in its sequence. -/
theorem includes_maybeThen_before (h : Runs rules (.unit (.maybeThen a b onMissing)) s o t tr) :
    Includes rules tr (.unit (.maybe a)) s .nil := by
  cases h with
  | maybeThen_stop h => exact .of_whole h
  | maybeThen_match h _ | maybeThen_hard h _ | maybeThen_absent h _ => exact .of_first h
  | maybeThen_escalate h _ _ => exact .of_first h

/-- The unit after an optional part is started where the part matched, present or absent. -/
theorem includes_maybeThen_next (h : Runs rules (.unit (.maybeThen a b onMissing)) s o t tr)
    (hbefore : Runs rules (.unit (.maybe a)) s (.matched v) u before) : Includes rules tr (.unit b) u before := by
  cases h with
  | maybeThen_stop h => nomatch (hbefore.unique h).1
  | maybeThen_match h₁ h₂ | maybeThen_hard h₁ h₂ | maybeThen_absent h₁ h₂ =>
    obtain ⟨-, rfl, rfl⟩ := hbefore.unique h₁
    exact .of_last h₂
  | maybeThen_escalate h₁ h₂ _ =>
    obtain ⟨-, rfl, rfl⟩ := hbefore.unique h₁
    exact .of_run h₂

end

/-! ### Alternations and options -/

section

variable {index : Nat}

/-- A choice remembers the place, and starts its first unit. -/
theorem includes_choose_first (h : Runs rules (.unit (.choose a b)) s o t tr) : Includes rules tr (.unit a) s (.opened s) := by
  cases h with
  | choose_first h _ => exact .of_last h
  | choose_second h _ _ => exact .of_run h

/-- Where the first unit fails softly, a choice goes back, and starts the second one. -/
theorem includes_choose_second (h : Runs rules (.unit (.choose a b)) s o t tr) (hfirst : Runs rules (.unit a) s .soft u before)
    (hr : Context.restore u (Context.backup s) = .ok w) :
    Includes rules tr (.unit b) w (.opened s ++ (before ++ (.event .firstAlternativeMissed ++ .rewound w))) := by
  cases h with
  | choose_first h ho =>
    obtain ⟨rfl, -, -⟩ := hfirst.unique h
    nomatch ho
  | choose_second h₁ hr' h₂ =>
    obtain ⟨rfl, rfl⟩ := hfirst.unique_return h₁ hr hr'
    simp only [← Trace.append_assoc]
    exact .of_last h₂

/-- An alternation remembers the place before each candidate. -/
theorem includes_candidates_here (h : Runs rules (.candidates index (g :: gs)) s o t tr) :
    Includes rules tr (.unit g) s (.opened s) := by
  cases h with
  | candidates_here h _ => exact .of_last h
  | candidates_next h _ _ => exact .of_run h

/-- A candidate that fails softly is gone back from, and the next ones are started. -/
theorem includes_candidates_next (h : Runs rules (.candidates index (g :: gs)) s o t tr)
    (hfirst : Runs rules (.unit g) s .soft u before) (hr : Context.restore u (Context.backup s) = .ok w) :
    Includes rules tr (.candidates (index + 1) gs) w
      (.opened s ++ (before ++ (.event (.alternativeMissed index) ++ .rewound w))) := by
  cases h with
  | candidates_here h ho =>
    obtain ⟨rfl, -, -⟩ := hfirst.unique h
    nomatch ho
  | candidates_next h₁ hr' h₂ =>
    obtain ⟨rfl, rfl⟩ := hfirst.unique_return h₁ hr hr'
    simp only [← Trace.append_assoc]
    exact .of_last h₂

/-- A recovering unit remembers the place, and starts its primary unit. -/
theorem includes_rescue_primary (h : Runs rules (.unit (.rescue a b)) s o t tr) :
    Includes rules tr (.unit a) s (.opened s) := by
  cases h with
  | rescue_primary h => exact .of_last h
  | rescue_missed h _ _ | rescue_recover h _ _ => exact .of_run h

/-- Where the primary unit fails softly, the fallback is started from the place remembered. -/
theorem includes_rescue_missed (h : Runs rules (.unit (.rescue a b)) s o t tr) (hfirst : Runs rules (.unit a) s .soft u before)
    (hr : Context.restore u (Context.backup s) = .ok w) :
    Includes rules tr (.unit b) w (.opened s ++ (before ++ (.event .primaryMissed ++ .rewound w))) := by
  cases h with
  | rescue_primary h => nomatch (hfirst.unique h).1
  | rescue_recover h _ _ => nomatch (hfirst.unique h).1
  | rescue_missed h₁ hr' h₂ =>
    obtain ⟨rfl, rfl⟩ := hfirst.unique_return h₁ hr hr'
    simp only [← Trace.append_assoc]
    exact .of_last h₂

/-- Where the primary unit fails hard, the fallback is started from the place remembered. -/
theorem includes_rescue_recover {failure : Failure} (h : Runs rules (.unit (.rescue a b)) s o t tr)
    (hfirst : Runs rules (.unit a) s (.hard failure) u before) (hr : Context.restore u (Context.backup s) = .ok w) :
    Includes rules tr (.unit b) w (.opened s ++ (before ++ (.event (.recovering failure) ++ .rewound w))) := by
  cases h with
  | rescue_primary h => nomatch (hfirst.unique h).1
  | rescue_missed h _ _ => nomatch (hfirst.unique h).1
  | rescue_recover h₁ hr' h₂ =>
    obtain ⟨⟨⟩, -, -⟩ := hfirst.unique h₁
    obtain ⟨rfl, rfl⟩ := hfirst.unique_return h₁ hr hr'
    simp only [← Trace.append_assoc]
    exact .of_last h₂

/-- An optional unit remembers the place, and starts its part. -/
theorem includes_maybe (h : Runs rules (.unit (.maybe a)) s o t tr) : Includes rules tr (.unit a) s (.opened s) := by
  cases h with
  | maybe_present h | maybe_hard h => exact .of_last h
  | maybe_absent h _ => exact .of_run h

end

/-! ### Repetitions and conversions -/

/-- Each turn of a repetition remembers its place. -/
theorem includes_turns_base (h : Runs rules (.turns a) s o t tr) : Includes rules tr (.unit a) s (.opened s) := by
  cases h with
  | turns_hard h => exact .of_last h
  | turns_stop h _ | turns_more h _ | turns_more_hard h _ => exact .of_run h

/-- After a match the turns go on where it ended. -/
theorem includes_turns_more (h : Runs rules (.turns a) s o t tr) (hbase : Runs rules (.unit a) s (.matched v) u before) :
    Includes rules tr (.turns a) u (.opened s ++ before) := by
  cases h with
  | turns_stop h _ => nomatch (hbase.unique h).1
  | turns_hard h => nomatch (hbase.unique h).1
  | turns_more h₁ h₂ | turns_more_hard h₁ h₂ =>
    obtain ⟨-, rfl, rfl⟩ := hbase.unique h₁
    rw [← Trace.append_assoc]
    exact .of_last h₂

/-- A repetition of at least one match starts its turns first of all. -/
theorem includes_oneOrMany (h : Runs rules (.unit (.oneOrMany a)) s o t tr) : Includes rules tr (.turns a) s .nil := by
  cases h with
  | oneOrMany_none h | oneOrMany_some h => exact .of_first h
  | oneOrMany_hard h => exact .of_whole h

/-- A repetition of any number of matches starts its turns first of all. -/
theorem includes_zeroOrMany (h : Runs rules (.unit (.zeroOrMany a)) s o t tr) : Includes rules tr (.turns a) s .nil := by
  cases h with
  | zeroOrMany_some h => exact .of_first h
  | zeroOrMany_hard h => exact .of_whole h

/-- A conversion starts its unit first of all. -/
theorem includes_map {f : Value → Value} (h : Runs rules (.unit (.map f a)) s o t tr) : Includes rules tr (.unit a) s .nil := by
  cases h with
  | map_match h => exact .of_whole h
  | map_stop h _ => exact .of_whole h

/-- An action on the value comes after its unit. -/
theorem includes_transform {f : Value → Action (Except Failure Value)} (h : Runs rules (.unit (.transform f a)) s o t tr) :
    Includes rules tr (.unit a) s .nil := by
  cases h with
  | transform_stop h _ => exact .of_whole h
  | transform_match h _ | transform_hard h _ => exact .of_first h

/-- A wrapper starts what it wraps. -/
theorem includes_wrap {how : Wrapper} (h : Runs rules (.unit (.wrap how a)) s o t tr) : Includes rules tr (.unit a) s .nil := by
  cases h with
  | wrap h => exact .of_whole h

/-- A link starts the body of its rule. -/
theorem includes_link {l : Link} {body : Grammar} (h : Runs rules (.unit (.link l)) s o t tr) (hbody : rules l.rule = some body) :
    Includes rules tr (.unit body) s .nil := by
  cases h with
  | link hbody' h =>
    cases hbody.symm.trans hbody'
    exact .of_whole h
  | link_unbound hnone => cases hbody.symm.trans hnone

end Runs

end

/-- In a run that ends, each job that it started has ended, and what that one did stands in the trace after what was done
before. -/
theorem Runs.of_invokes {rules : Rules} {job job' : Job} {s s' t : σ} {n : Nat} {o : Outcome Value} {before tr : Trace}
    (hrun : Runs rules job s o t tr) (hinv : Invokes rules job s n job' s' before) :
    ∃ o' t' tr' after, Runs rules job' s' o' t' tr' ∧ tr = before ++ (tr' ++ after) := by
  cases hinv with
  | seq_head => exact hrun.includes_seq_head
  | seq_tail hhead => exact hrun.includes_seq_tail hhead
  | bind_base => exact hrun.includes_bind_base
  | bind_next hbase => exact hrun.includes_bind_next hbase
  | choose_first => exact hrun.includes_choose_first
  | choose_second hfirst hback => exact hrun.includes_choose_second hfirst hback
  | oneOf =>
    cases hrun with
    | oneOf h => exact Includes.of_whole h
  | candidates_here => exact hrun.includes_candidates_here
  | candidates_next hfirst hback => exact hrun.includes_candidates_next hfirst hback
  | rescue_primary => exact hrun.includes_rescue_primary
  | rescue_missed hfirst hback => exact hrun.includes_rescue_missed hfirst hback
  | rescue_recover hfirst hback => exact hrun.includes_rescue_recover hfirst hback
  | maybe => exact hrun.includes_maybe
  | maybeThen_before => exact hrun.includes_maybeThen_before
  | maybeThen_next hbefore => exact hrun.includes_maybeThen_next hbefore
  | turns_base => exact hrun.includes_turns_base
  | turns_more hbase => exact hrun.includes_turns_more hbase
  | oneOrMany => exact hrun.includes_oneOrMany
  | zeroOrMany => exact hrun.includes_zeroOrMany
  | map => exact hrun.includes_map
  | transform => exact hrun.includes_transform
  | wrap => exact hrun.includes_wrap
  | link hbody => exact hrun.includes_link hbody

/-- The same of the jobs started at any depth. -/
theorem Runs.of_reaches {rules : Rules} {through : Job → Nat → Prop} {job job' : Job} {s s' t : σ} {o : Outcome Value}
    {before tr : Trace} (hrun : Runs rules job s o t tr) (h : Reaches rules through job s job' s' before) :
    ∃ o' t' tr' after, Runs rules job' s' o' t' tr' ∧ tr = before ++ (tr' ++ after) := by
  induction h with
  | here => exact ⟨o, t, tr, .nil, hrun, Trace.eq_whole tr⟩
  | invoke _ hinv _ ih =>
    obtain ⟨o₁, t₁, tr₁, after₁, hrun₁, rfl⟩ := ih
    obtain ⟨o₂, t₂, tr₂, after₂, hrun₂, rfl⟩ := hrun₁.of_invokes hinv
    exact ⟨o₂, t₂, tr₂, after₂ ++ after₁, hrun₂, by simp only [Trace.append_assoc]⟩

end

/-! ## Units that are started -/

/-- The unit occurs in one of those that the job is busy with. -/
def Job.Holds (rules : Rules) (h : Grammar) : Job → Prop
  | .unit g | .turns g => g.Part rules h
  | .candidates _ gs => ∃ g ∈ gs, g.Part rules h

section

variable {σ : Type} [Context σ] {rules : Rules} {job job' : Job} {s s' : σ} {n : Nat} {before : Trace} {h : Grammar}

/-- A job is started for units that occur in the job that starts it; only the optional part of a sequence is started in a unit of
its own. -/
theorem Invokes.holds_or (hinv : Invokes rules job s n job' s' before) (hh : job'.Holds rules h) :
    job.Holds rules h ∨ ∃ a b onMissing, h = .maybe a ∧ job = .unit (.maybeThen a b onMissing) := by
  cases hinv with
  | seq_head => exact .inl (.of_child .seq_head hh)
  | seq_tail => exact .inl (.of_child .seq_tail hh)
  | bind_base => exact .inl (.of_child .bind_base hh)
  | bind_next => exact .inl (.of_child (.bind_next _) hh)
  | choose_first => exact .inl (.of_child .choose_first hh)
  | choose_second => exact .inl (.of_child .choose_second hh)
  | oneOf =>
    obtain ⟨g, hg, hh⟩ := hh
    exact .inl (.of_child (.candidate hg) hh)
  | candidates_here => exact .inl ⟨_, List.mem_cons_self, hh⟩
  | candidates_next =>
    obtain ⟨g, hg, hh⟩ := hh
    exact .inl ⟨g, List.mem_cons_of_mem _ hg, hh⟩
  | rescue_primary => exact .inl (.of_child .rescue_primary hh)
  | rescue_missed | rescue_recover => exact .inl (.of_child .rescue_fallback hh)
  | maybe => exact .inl (.of_child .maybe hh)
  | maybeThen_before =>
    rcases Relation.ReflTransGen.cases_head hh with rfl | ⟨a, hchild, hh⟩
    · exact .inr ⟨_, _, _, rfl, rfl⟩
    · cases hchild
      exact .inl (.of_child .maybeThen_before hh)
  | maybeThen_next => exact .inl (.of_child .maybeThen_next hh)
  | turns_base => exact .inl hh
  | turns_more => exact .inl hh
  | oneOrMany => exact .inl (.of_child .oneOrMany hh)
  | zeroOrMany => exact .inl (.of_child .zeroOrMany hh)
  | map => exact .inl (.of_child .map hh)
  | transform => exact .inl (.of_child .transform hh)
  | wrap => exact .inl (.of_child .wrap hh)
  | link hbody => exact .inl (.of_child (.link hbody) hh)

/-- Except for the optional part of a sequence, what a job starts has no parts that the job has not. -/
theorem Invokes.holds (hinv : Invokes rules job s n job' s' before) (hne : ∀ a, h ≠ .maybe a) (hh : job'.Holds rules h) :
    job.Holds rules h := by
  rcases hinv.holds_or hh with hh | ⟨a, _, _, ha, -⟩
  · exact hh
  · exact absurd ha (hne a)

/-- Except for the optional part of a sequence, what a job comes to has no parts that the job has not. -/
theorem Reaches.holds {through : Job → Nat → Prop} (hreach : Reaches rules through job s job' s' before)
    (hne : ∀ a, h ≠ .maybe a) (hh : job'.Holds rules h) : job.Holds rules h := by
  induction hreach with
  | here => exact hh
  | invoke _ hinv _ ih => exact ih (hinv.holds hne hh)

end

/-! ## Invocations on a lawful context -/

section

variable {σ : Type} [Context σ] [LawfulContext σ] {rules : Rules} {job job' : Job} {s s' : σ} {n : Nat} {before : Trace}

/-- A job is started in a descendant of the context in which the one that starts it was started. -/
theorem Invokes.descends (h : Invokes rules job s n job' s' before) : Descends s s' := by
  cases h with
  | seq_tail h | bind_next h | maybeThen_next h | turns_more h => exact h.descends
  | choose_second h hr | candidates_next h hr | rescue_missed h hr | rescue_recover h hr =>
    rw [LawfulContext.eq_of_restore h.descends hr]
    exact .refl
  | _ => exact .refl

/-- What a job comes to is started at the place of the job or ahead of it. -/
theorem Reaches.descends {through : Job → Nat → Prop} (h : Reaches rules through job s job' s' before) : Descends s s' := by
  induction h with
  | here => exact .refl
  | invoke _ hinv _ ih => exact ih.trans hinv.descends

end

end Backtrack
