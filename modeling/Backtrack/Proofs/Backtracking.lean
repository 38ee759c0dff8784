import Backtrack.Proofs.Escalation
import Backtrack.Proofs.Rewinds
import Mathlib.Data.Set.Card

/-!
# Backtracking and its reports

An alternation, a rescue and a repetition report it when they go back to a remembered place. An optional unit whose part is absent goes
back without a report, and so does a `bind` when the unit that the value selects fails softly. So the returns in a parse are as many as
the reports, and one more for each such invocation.
-/

namespace Backtrack

/-! ## Invocations by their paths -/

section

variable {σ : Type} [Context σ]

/-- `InvokedAt rules job s path job' s'`: from `job`, started in the context `s`, the invocations with the numbers of the path lead to
`job'`, started in the context `s'`. -/
inductive InvokedAt (rules : Rules) : Job → σ → List Nat → Job → σ → Prop where
  | here {job : Job} {s : σ} : InvokedAt rules job s [] job s
  | invoke {job job₁ job₂ : Job} {s s₁ s₂ : σ} {n : Nat} {path : List Nat} {before : Trace} :
      Invokes rules job s n job₁ s₁ before → InvokedAt rules job₁ s₁ path job₂ s₂ → InvokedAt rules job s (n :: path) job₂ s₂

/-- The paths that lead to a job that satisfies the predicate. -/
def occurrences (rules : Rules) (P : Job → σ → Prop) (job : Job) (s : σ) : Set (List Nat) :=
  {path | ∃ job' s', InvokedAt rules job s path job' s' ∧ P job' s'}

/-- Whether the job goes on to a second one when the first that it starts ends so. -/
def Job.GoesOn : Job → Outcome Value → Prop
  | .unit (.seq ..), o | .unit (.bind ..), o | .unit (.maybeThen ..), o | .turns _, o => o.isMatch = true
  | .unit (.choose ..), o | .candidates _ _, o => o.isSoft = true
  | .unit (.rescue ..), o => o.isMatch = false
  | _, _ => False

variable {rules : Rules} {job job' job₀ job₁ job₂ : Job} {s s' s₀ s₁ s₂ t : σ} {o : Outcome Value} {n : Nat} {path : List Nat}
  {tr before before₀ before₁ before₂ : Trace} {P Q : Job → σ → Prop}

/-- A job itself starts no more than two. -/
theorem Invokes.eq_zero_or_one (h : Invokes rules job s n job₁ s₁ before) : n = 0 ∨ n = 1 := by
  cases h with
  | _ => first | exact .inl rfl | exact .inr rfl

/-- The second job is started where the first has ended so that there is more to do. -/
theorem Invokes.goesOn (h₁ : Invokes rules job s 1 job₁ s₁ before₁) (h₀ : Invokes rules job s 0 job₀ s₀ before₀)
    (hrun : Runs rules job₀ s₀ o t tr) : job.GoesOn o := by
  cases h₁ with
  | seq_tail h | bind_next h | maybeThen_next h | turns_more h =>
    cases h₀
    obtain ⟨rfl, -, -⟩ := h.unique hrun
    rfl
  | choose_second h _ | candidates_next h _ | rescue_missed h _ | rescue_recover h _ =>
    cases h₀
    obtain ⟨rfl, -, -⟩ := h.unique hrun
    rfl

/-- The job and the number tell which job is started, and in which context. -/
theorem Invokes.unique (h₁ : Invokes rules job s n job₁ s₁ before₁) (h₂ : Invokes rules job s n job₂ s₂ before₂) :
    job₁ = job₂ ∧ s₁ = s₂ := by
  cases h₁ with
  | seq_tail h =>
    cases h₂ with
    | seq_tail h' =>
      obtain ⟨-, rfl, -⟩ := h.unique h'
      exact ⟨rfl, rfl⟩
  | maybeThen_next h =>
    cases h₂ with
    | maybeThen_next h' =>
      obtain ⟨-, rfl, -⟩ := h.unique h'
      exact ⟨rfl, rfl⟩
  | turns_more h =>
    cases h₂ with
    | turns_more h' =>
      obtain ⟨-, rfl, -⟩ := h.unique h'
      exact ⟨rfl, rfl⟩
  | bind_next h =>
    cases h₂ with
    | bind_next h' =>
      obtain ⟨hv, rfl, -⟩ := h.unique h'
      cases hv
      exact ⟨rfl, rfl⟩
  | choose_second h hr =>
    cases h₂ with
    | choose_second h' hr' =>
      exact ⟨rfl, (h.unique_return h' hr hr').2⟩
  | candidates_next h hr =>
    cases h₂ with
    | candidates_next h' hr' =>
      exact ⟨rfl, (h.unique_return h' hr hr').2⟩
  | rescue_missed h hr | rescue_recover h hr =>
    cases h₂ with
    | rescue_missed h' hr' | rescue_recover h' hr' =>
      exact ⟨rfl, (h.unique_return h' hr hr').2⟩
  | link hbody =>
    cases h₂ with
    | link hbody' =>
      cases hbody.symm.trans hbody'
      exact ⟨rfl, rfl⟩
  | _ =>
    cases h₂
    exact ⟨rfl, rfl⟩

/-- A path of invocations leads to one job and one context. -/
theorem InvokedAt.unique (h₁ : InvokedAt rules job s path job₁ s₁) (h₂ : InvokedAt rules job s path job₂ s₂) :
    job₁ = job₂ ∧ s₁ = s₂ := by
  induction h₁ with
  | here =>
    cases h₂
    exact ⟨rfl, rfl⟩
  | invoke hinv _ ih =>
    cases h₂ with
    | invoke hinv' h₂ =>
      obtain ⟨rfl, rfl⟩ := hinv.unique hinv'
      exact ih h₂

/-- What is invoked along a path is come to. -/
theorem InvokedAt.reaches (h : InvokedAt rules job s path job' s') :
    ∃ before, Reaches rules (fun _ _ => True) job s job' s' before := by
  induction h with
  | here => exact ⟨.nil, .here⟩
  | invoke hinv _ ih =>
    obtain ⟨before, hreach⟩ := ih
    exact ⟨_, hreach.of_invokes hinv trivial⟩

/-! ## Numbers of occurrences -/

/-- Paths of which the first step is the first or the second one are counted by that step. -/
theorem encard_of_heads {S : Set (List Nat)} (hS : ∀ n path, n :: path ∈ S → n = 0 ∨ n = 1) :
    S.encard = (S ∩ {[]}).encard + {path | 0 :: path ∈ S}.encard + {path | 1 :: path ∈ S}.encard := by
  have hunion : S = (S ∩ {[]} ∪ List.cons 0 '' {path | 0 :: path ∈ S}) ∪ List.cons 1 '' {path | 1 :: path ∈ S} := by
    ext path
    cases path with
    | nil => simp
    | cons n path =>
      constructor
      · intro h
        rcases hS n path h with rfl | rfl
        · exact .inl (.inr ⟨path, h, rfl⟩)
        · exact .inr ⟨path, h, rfl⟩
      · rintro ((⟨h, -⟩ | ⟨path', h, heq⟩) | ⟨path', h, heq⟩)
        · exact h
        · rwa [← heq]
        · rwa [← heq]
  have hleft : Disjoint (S ∩ {[]}) (List.cons 0 '' {path | 0 :: path ∈ S}) := by
    rw [Set.disjoint_left]
    rintro _ ⟨-, rfl⟩ ⟨_, -, h⟩
    nomatch h
  have hright : Disjoint (S ∩ {[]} ∪ List.cons 0 '' {path | 0 :: path ∈ S}) (List.cons 1 '' {path | 1 :: path ∈ S}) := by
    rw [Set.disjoint_left]
    rintro _ (⟨-, rfl⟩ | ⟨_, -, rfl⟩) ⟨_, -, h⟩
    · nomatch h
    · nomatch h
  conv_lhs => rw [hunion]
  rw [Set.encard_union_eq hright, Set.encard_union_eq hleft, List.cons_injective.encard_image, List.cons_injective.encard_image]

/-- The paths that begin with a job that is started are those that it begins itself. -/
theorem occurrences_tail (hinv : Invokes rules job s n job₁ s₁ before) :
    {path | n :: path ∈ occurrences rules P job s} = occurrences rules P job₁ s₁ := by
  ext path
  constructor
  · rintro ⟨job', s', hat, hP⟩
    cases hat with
    | invoke hinv' hat =>
      obtain ⟨rfl, rfl⟩ := hinv.unique hinv'
      exact ⟨job', s', hat, hP⟩
  · rintro ⟨job', s', hat, hP⟩
    exact ⟨job', s', .invoke hinv hat, hP⟩

/-- Where no job is started with a number, nothing occurs behind it. -/
theorem occurrences_tail_eq_empty (hnone : ∀ job₁ s₁ before, ¬Invokes rules job s n job₁ s₁ before) :
    {path | n :: path ∈ occurrences rules P job s} = ∅ := by
  rw [Set.eq_empty_iff_forall_notMem]
  rintro path ⟨job', s', hat, -⟩
  cases hat with
  | invoke hinv _ => exact hnone _ _ _ hinv

/-- The job itself is an occurrence where it has the property. -/
theorem nil_mem_occurrences : [] ∈ occurrences rules P job s ↔ P job s := by
  constructor
  · rintro ⟨_, _, hat, hP⟩
    cases hat
    exact hP
  · exact fun hP => ⟨job, s, .here, hP⟩

/-- Whether the job itself satisfies the predicate, as a number. -/
theorem encard_here (hP : P job s) : (occurrences rules P job s ∩ {[]}).encard = (1 : Nat) := by
  rw [Set.inter_eq_right.2 (Set.singleton_subset_iff.2 (nil_mem_occurrences.2 hP)), Set.encard_singleton]
  rfl

/-- A job that has not the property does not count. -/
theorem encard_not_here (hP : ¬P job s) : (occurrences rules P job s ∩ {[]}).encard = (0 : Nat) := by
  have hempty : occurrences rules P job s ∩ {[]} = ∅ :=
    Set.inter_singleton_eq_empty.2 fun hmem => hP (nil_mem_occurrences.1 hmem)
  rw [hempty, Set.encard_empty]
  rfl

variable {d n₀ n₁ : Nat}

/-- The occurrences in a job are the job itself and those behind its first and its second invocation. -/
theorem encard_occurrences :
    (occurrences rules P job s).encard = (occurrences rules P job s ∩ {[]}).encard +
      {path | 0 :: path ∈ occurrences rules P job s}.encard + {path | 1 :: path ∈ occurrences rules P job s}.encard := by
  refine encard_of_heads fun n path hmem => ?_
  obtain ⟨_, _, hat, -⟩ := hmem
  cases hat with
  | invoke hinv _ => exact hinv.eq_zero_or_one

/-- Where a job starts no other, only it counts. -/
theorem encard_of_none (hhere : (occurrences rules P job s ∩ {[]}).encard = d)
    (hnone : ∀ n job₁ s₁ before, ¬Invokes rules job s n job₁ s₁ before) : (occurrences rules P job s).encard = d := by
  rw [encard_occurrences, hhere, occurrences_tail_eq_empty (hnone 0), occurrences_tail_eq_empty (hnone 1), Set.encard_empty, add_zero,
    add_zero]

/-- Where a job starts one other, that one counts besides. -/
theorem encard_of_one (hhere : (occurrences rules P job s ∩ {[]}).encard = d) (h₀ : Invokes rules job s 0 job₀ s₀ before₀)
    (hrun : Runs rules job₀ s₀ o t tr) (hstop : ¬job.GoesOn o) (hn₀ : (occurrences rules P job₀ s₀).encard = n₀) :
    (occurrences rules P job s).encard = (d + n₀ : Nat) := by
  have hnone : ∀ job₁ s₁ before, ¬Invokes rules job s 1 job₁ s₁ before := fun _ _ _ h₁ => hstop (h₁.goesOn h₀ hrun)
  rw [encard_occurrences, hhere, occurrences_tail h₀, hn₀, occurrences_tail_eq_empty hnone, Set.encard_empty, add_zero, Nat.cast_add]

/-- Where a job starts two others, both count besides. -/
theorem encard_of_two (hhere : (occurrences rules P job s ∩ {[]}).encard = d) (h₀ : Invokes rules job s 0 job₀ s₀ before₀)
    (h₁ : Invokes rules job s 1 job₁ s₁ before₁) (hn₀ : (occurrences rules P job₀ s₀).encard = n₀)
    (hn₁ : (occurrences rules P job₁ s₁).encard = n₁) : (occurrences rules P job s).encard = (d + n₀ + n₁ : Nat) := by
  rw [encard_occurrences, hhere, occurrences_tail h₀, hn₀, occurrences_tail h₁, hn₁, Nat.cast_add, Nat.cast_add]

/-- Occurrences of either of two things that no job is at once. -/
theorem encard_occurrences_or (hPQ : ∀ job s, P job s → ¬Q job s) :
    (occurrences rules (fun job s => P job s ∨ Q job s) job s).encard =
      (occurrences rules P job s).encard + (occurrences rules Q job s).encard := by
  have hunion : occurrences rules (fun job s => P job s ∨ Q job s) job s = occurrences rules P job s ∪ occurrences rules Q job s := by
    ext path
    simp only [occurrences, Set.mem_union, Set.mem_ofPred_eq, and_or_left, exists_or]
  rw [hunion, Set.encard_union_eq]
  rw [Set.disjoint_left]
  rintro path ⟨_, _, hat, hP⟩ ⟨_, _, hat', hQ⟩
  obtain ⟨rfl, rfl⟩ := hat.unique hat'
  exact hPQ _ _ hP hQ

end

/-! ## Returns and reports -/

/-- Whether the call goes back to a remembered place. -/
def Call.isRestore : Call → Bool
  | .restore _ => true
  | _ => false

/-- Whether the event reports that a place is, or has been, gone back to. -/
@[simp]
def Event.isReturn : Event → Bool
  | .firstAlternativeMissed | .alternativeMissed _ | .primaryMissed | .recovering _ | .repetitionStopped _ => true
  | .tailMissed _ | .nextMissed _ | .advance _ | .definedWhileDeclared => false

namespace Trace

/-- The number of returns to remembered places. -/
def returns (tr : Trace) : Nat :=
  tr.calls.countP Call.isRestore

/-- The number of reports of such returns. -/
def reports (tr : Trace) : Nat :=
  tr.events.countP Event.isReturn

/-- By how much the returns outnumber the reports. -/
def unreported (tr : Trace) : Int :=
  tr.returns - tr.reports

@[simp] theorem unreported_nil : unreported .nil = 0 := rfl

/-- Returns without a report add up along a trace. -/
@[simp] theorem unreported_append (t u : Trace) : (t ++ u).unreported = t.unreported + u.unreported := by
  simp only [unreported, returns, reports, calls_append, events_append, List.countP_append, Nat.cast_add]
  omega

/-- A report of a return makes up for one return. -/
@[simp] theorem unreported_event (e : Event) : (event e).unreported = if e.isReturn then -1 else 0 := by
  cases e <;> rfl

variable {σ : Type} [Context σ]

@[simp] theorem unreported_opened (s : σ) : (opened s).unreported = 0 := rfl

/-- A return counts once. -/
@[simp] theorem unreported_rewound (s : σ) : (rewound s).unreported = 1 := rfl

end Trace

section

variable {σ : Type} [Context σ] [MovingContext σ]

/-- An action goes back nowhere, and reports no return. -/
theorem Action.unreported {α : Type} {f : Action α} {s t : σ} {a : α} {tr : Trace} (h : f.run.run s = .ok ⟨a, t, tr⟩) :
    tr.unreported = 0 := by
  induction f generalizing s tr with
  | done a =>
    obtain ⟨-, -, rfl⟩ := Engine.run_pure_eq_ok.1 h
    rfl
  | front k ih | remaining k ih =>
    obtain ⟨item, s', tr₁, hcall, tr₂, hrest, rfl⟩ := Engine.run_bind_eq_ok.1 h
    cases hcall
    rw [Trace.unreported_append, ih _ hrest]
    rfl
  | popFront k ih =>
    obtain ⟨item, s', tr₁, hcall, tr₂, hrest, rfl⟩ := Engine.run_bind_eq_ok.1 h
    cases hcall
    have hreports : (Context.popEvents s).countP Event.isReturn = 0 := by
      rw [List.countP_eq_zero]
      intro e he
      obtain ⟨pos, rfl⟩ := MovingContext.eq_advance_of_mem he
      exact Bool.false_ne_true
    rw [Trace.unreported_append, ih _ hrest, Trace.unreported, Trace.returns, Trace.reports, Trace.calls_call_events,
      Trace.events_call_events, hreports]
    rfl

/-- The predicate leaf neither goes back nor reports that it does. -/
theorem Parser.unreported_pop {pred : Value → Bool} {s t : σ} {o : Outcome Value} {tr : Trace}
    (h : (Parser.pop pred).run s = .ok ⟨o, t, tr⟩) : tr.unreported = 0 := by
  rw [Parser.pop_eq_run] at h
  exact Action.unreported h

end

/-! ## Returns without a report -/

section

variable {σ : Type} [Context σ]

/-- The job, started in the context, is an optional unit, and its part is absent. -/
inductive FindsAbsent (rules : Rules) : Job → σ → Prop where
  | intro {a : Grammar} {s t : σ} : a.Yields rules s .soft t → FindsAbsent rules (.unit (.maybe a)) s

/-- The job, started in the context, is a `bind`, and the unit that the value of the first one selects fails softly. -/
inductive MissesSelected (rules : Rules) : Job → σ → Prop where
  | intro {a : Grammar} {next : Value → Grammar} {held : List RuleId} {s t u : σ} {v : Value} :
      a.Yields rules s (.matched v) t → (next v).Yields rules t .soft u → MissesSelected rules (.unit (.bind a next held)) s

/-- The job goes back to where it was started, and does not report it. -/
def GoesBackSilently (rules : Rules) (job : Job) (s : σ) : Prop :=
  FindsAbsent rules job s ∨ MissesSelected rules job s

variable {rules : Rules} {job job' : Job} {s s' t : σ} {o : Outcome Value} {tr : Trace} {path : List Nat}

/-- Only optional units and units whose value selects the next one go back without a report. -/
theorem not_goesBackSilently (hmaybe : ∀ a, job ≠ .unit (.maybe a)) (hbind : ∀ a next held, job ≠ .unit (.bind a next held)) :
    ¬GoesBackSilently rules job s := by
  rintro (h | h)
  · cases h
    exact hmaybe _ rfl
  · cases h
    exact hbind _ _ _ rfl

/-- Of the units that go back only optional ones and `bind`s do not report it. -/
theorem encard_of_loud (hmaybe : ∀ a, job ≠ .unit (.maybe a)) (hbind : ∀ a next held, job ≠ .unit (.bind a next held)) :
    (occurrences rules (GoesBackSilently rules) job s ∩ {[]}).encard = (0 : Nat) :=
  encard_not_here (not_goesBackSilently hmaybe hbind)

/-- An optional unit does where its part fails softly. -/
theorem goesBackSilently_maybe {a : Grammar} (h : Runs rules (.unit a) s .soft t tr) :
    GoesBackSilently rules (.unit (.maybe a)) s :=
  .inl (.intro h.yields)

/-- An optional unit whose part is not absent does not go back. -/
theorem not_goesBackSilently_maybe {a : Grammar} (h : Runs rules (.unit a) s o t tr) (ho : o ≠ .soft) :
    ¬GoesBackSilently rules (.unit (.maybe a)) s := by
  rintro (habsent | hbind)
  · cases habsent with
    | intro habsent => exact ho (h.yields.unique habsent).1
  · nomatch hbind

/-- A unit whose value selects the next one does where that one fails softly. -/
theorem goesBackSilently_bind {a : Grammar} {next : Value → Grammar} {held : List RuleId} {u : σ} {v : Value} {tr' : Trace}
    (h : Runs rules (.unit a) s (.matched v) t tr) (hnext : Runs rules (.unit (next v)) t .soft u tr') :
    GoesBackSilently rules (.unit (.bind a next held)) s :=
  .inr (.intro h.yields hnext.yields)

/-- A `bind` whose first unit does not match has nothing to go back for. -/
theorem not_goesBackSilently_bind_stop {a : Grammar} {next : Value → Grammar} {held : List RuleId}
    (h : Runs rules (.unit a) s o t tr) (ho : o.isMatch = false) : ¬GoesBackSilently rules (.unit (.bind a next held)) s := by
  rintro (hmaybe | ⟨hbase, -⟩)
  · nomatch hmaybe
  · obtain ⟨rfl, -⟩ := h.yields.unique hbase
    nomatch ho

/-- A `bind` whose selected unit does not fail softly does not go back. -/
theorem not_goesBackSilently_bind_go {a : Grammar} {next : Value → Grammar} {held : List RuleId} {u : σ} {v : Value} {tr' : Trace}
    (h : Runs rules (.unit a) s (.matched v) t tr) (hnext : Runs rules (.unit (next v)) t o u tr') (ho : o.isSoft = false) :
    ¬GoesBackSilently rules (.unit (.bind a next held)) s := by
  rintro (hmaybe | ⟨hbase, hsoft⟩)
  · nomatch hmaybe
  · obtain ⟨hv, rfl⟩ := h.yields.unique hbase
    cases hv
    obtain ⟨rfl, -⟩ := hnext.yields.unique hsoft
    nomatch ho

/-- The turns of a repetition that match have gone back once, which is not reported until the repetition stops. -/
@[simp]
def Job.due : Job → Outcome Value → Int
  | .turns _, .matched _ => 1
  | _, _ => 0

/-- `Tallies rules job s o tr`: in the trace the returns outnumber the reports by the invocations that go back without one, and by the
return that is still to be reported. -/
def Tallies (rules : Rules) (job : Job) (s : σ) (o : Outcome Value) (tr : Trace) : Prop :=
  ∃ n : Nat, (occurrences rules (GoesBackSilently rules) job s).encard = n ∧ tr.unreported = n + job.due o

namespace Tallies

variable {job₀ job₁ : Job} {s₀ s₁ t₀ : σ} {o₀ o₁ : Outcome Value} {tr₀ tr₁ before₀ before₁ : Trace} {d : Nat}

/-- No job is started. -/
theorem none (hhere : (occurrences rules (GoesBackSilently rules) job s ∩ {[]}).encard = d)
    (hnone : ∀ n job₁ s₁ before, ¬Invokes rules job s n job₁ s₁ before) (htr : tr.unreported = d + job.due o) :
    Tallies rules job s o tr :=
  ⟨d, encard_of_none hhere hnone, htr⟩

/-- One job is started. -/
theorem one (h : Tallies rules job₀ s₀ o₀ tr₀) (hhere : (occurrences rules (GoesBackSilently rules) job s ∩ {[]}).encard = d)
    (hinv : Invokes rules job s 0 job₀ s₀ before₀) (hrun : Runs rules job₀ s₀ o₀ t₀ tr₀) (hstop : ¬job.GoesOn o₀)
    (htr : tr.unreported + job₀.due o₀ = tr₀.unreported + d + job.due o) : Tallies rules job s o tr := by
  obtain ⟨n, hn, htr₀⟩ := h
  refine ⟨d + n, encard_of_one hhere hinv hrun hstop hn, ?_⟩
  rw [Nat.cast_add]
  omega

/-- Two jobs are started. -/
theorem two (h₀ : Tallies rules job₀ s₀ o₀ tr₀) (h₁ : Tallies rules job₁ s₁ o₁ tr₁)
    (hhere : (occurrences rules (GoesBackSilently rules) job s ∩ {[]}).encard = d) (hinv₀ : Invokes rules job s 0 job₀ s₀ before₀)
    (hinv₁ : Invokes rules job s 1 job₁ s₁ before₁)
    (htr : tr.unreported + job₀.due o₀ + job₁.due o₁ = tr₀.unreported + tr₁.unreported + d + job.due o) :
    Tallies rules job s o tr := by
  obtain ⟨n₀, hn₀, htr₀⟩ := h₀
  obtain ⟨n₁, hn₁, htr₁⟩ := h₁
  refine ⟨d + n₀ + n₁, encard_of_two hhere hinv₀ hinv₁ hn₀ hn₁, ?_⟩
  rw [Nat.cast_add, Nat.cast_add]
  omega

end Tallies

/-- In every run the returns outnumber the reports by the invocations that go back without one. -/
theorem Runs.tallies [MovingContext σ] (h : Runs rules job s o t tr) : Tallies rules job s o tr := by
  induction h with
  | pop h => exact .none (encard_of_loud nofun nofun) nofun (Parser.unreported_pop h)
  | apply h => exact .none (encard_of_loud nofun nofun) nofun (Action.unreported h)
  | candidates_none => exact .none (encard_of_loud nofun nofun) nofun rfl
  | link_unbound hnone =>
    refine .none (encard_of_loud nofun nofun) (fun n job₁ s₁ before hinv => ?_) rfl
    cases hinv with
    | link hbody => nomatch hbody.symm.trans hnone
  | seq_stop h ho ih => exact ih.one (encard_of_loud nofun nofun) .seq_head h (by simp [Job.GoesOn, ho]) (by simp)
  | bind_stop h ho ih =>
    exact ih.one (encard_not_here (not_goesBackSilently_bind_stop h ho)) .bind_base h (by simp [Job.GoesOn, ho]) (by simp)
  | choose_first h ho ih => exact ih.one (encard_of_loud nofun nofun) .choose_first h (by simp [Job.GoesOn, ho]) (by simp)
  | candidates_here h ho ih => exact ih.one (encard_of_loud nofun nofun) .candidates_here h (by simp [Job.GoesOn, ho]) (by simp)
  | rescue_primary h ih => exact ih.one (encard_of_loud nofun nofun) .rescue_primary h nofun (by simp)
  | maybeThen_stop h ih => exact ih.one (encard_of_loud nofun nofun) .maybeThen_before h nofun (by simp)
  | turns_stop h _ ih | turns_hard h ih => exact ih.one (encard_of_loud nofun nofun) .turns_base h nofun (by simp)
  | oneOf h ih => exact ih.one (encard_of_loud nofun nofun) .oneOf h id (by simp)
  | maybe_present h ih | maybe_hard h ih => exact ih.one (encard_not_here (not_goesBackSilently_maybe h nofun)) .maybe h id (by simp)
  | maybe_absent h _ ih => exact ih.one (encard_here (goesBackSilently_maybe h)) .maybe h id (by simp)
  | oneOrMany_none h ih | oneOrMany_some h ih | oneOrMany_hard h ih =>
    exact ih.one (encard_of_loud nofun nofun) .oneOrMany h id (by simp)
  | zeroOrMany_some h ih | zeroOrMany_hard h ih => exact ih.one (encard_of_loud nofun nofun) .zeroOrMany h id (by simp)
  | map_match h ih | map_stop h _ ih => exact ih.one (encard_of_loud nofun nofun) .map h id (by simp)
  | transform_stop h _ ih => exact ih.one (encard_of_loud nofun nofun) .transform h id (by simp)
  | transform_match h hf ih | transform_hard h hf ih =>
    exact ih.one (encard_of_loud nofun nofun) .transform h id (by simp [Action.unreported hf])
  | wrap h ih => exact ih.one (encard_of_loud nofun nofun) .wrap h id (by simp)
  | link hbody h ih => exact ih.one (encard_of_loud nofun nofun) (.link hbody) h id (by simp)
  | seq_match h₁ _ ih₁ ih₂ | seq_hard h₁ _ ih₁ ih₂ => exact ih₁.two ih₂ (encard_of_loud nofun nofun) .seq_head (.seq_tail h₁) (by simp)
  | seq_escalate h₁ _ hf ih₁ ih₂ =>
    exact ih₁.two ih₂ (encard_of_loud nofun nofun) .seq_head (.seq_tail h₁) (by simp [Action.unreported hf])
  | bind_go h₁ h₂ ho ih₁ ih₂ =>
    exact ih₁.two ih₂ (encard_not_here (not_goesBackSilently_bind_go h₁ h₂ ho)) .bind_base (.bind_next h₁) (by simp)
  | bind_back h₁ h₂ _ ih₁ ih₂ =>
    exact ih₁.two ih₂ (encard_here (goesBackSilently_bind h₁ h₂)) .bind_base (.bind_next h₁) (by simp [add_assoc])
  | choose_second h₁ hr _ ih₁ ih₂ => exact ih₁.two ih₂ (encard_of_loud nofun nofun) .choose_first (.choose_second h₁ hr) (by simp)
  | candidates_next h₁ hr _ ih₁ ih₂ => exact ih₁.two ih₂ (encard_of_loud nofun nofun) .candidates_here (.candidates_next h₁ hr) (by simp)
  | rescue_missed h₁ hr _ ih₁ ih₂ => exact ih₁.two ih₂ (encard_of_loud nofun nofun) .rescue_primary (.rescue_missed h₁ hr) (by simp)
  | rescue_recover h₁ hr _ ih₁ ih₂ => exact ih₁.two ih₂ (encard_of_loud nofun nofun) .rescue_primary (.rescue_recover h₁ hr) (by simp)
  | maybeThen_match h₁ _ ih₁ ih₂ | maybeThen_hard h₁ _ ih₁ ih₂ | maybeThen_absent h₁ _ ih₁ ih₂ =>
    exact ih₁.two ih₂ (encard_of_loud nofun nofun) .maybeThen_before (.maybeThen_next h₁) (by simp)
  | maybeThen_escalate h₁ _ hf ih₁ ih₂ =>
    exact ih₁.two ih₂ (encard_of_loud nofun nofun) .maybeThen_before (.maybeThen_next h₁) (by simp [Action.unreported hf])
  | turns_more h₁ _ ih₁ ih₂ | turns_more_hard h₁ _ ih₁ ih₂ =>
    exact ih₁.two ih₂ (encard_of_loud nofun nofun) .turns_base (.turns_more h₁) (by simp)

/-! ## Grammars that report every return -/

/-- Whether the unit goes back without a report when it has to: a `bind`, or a unit with an optional part. -/
def Grammar.mayReturnSilently : Grammar → Bool
  | .bind .. | .maybe _ | .maybeThen .. => true
  | _ => false

/-- Where no unit may go back silently, none of the jobs that are come to is busy with one that may. -/
theorem InvokedAt.not_mayReturnSilently (h : InvokedAt rules job s path job' s')
    (hjob : ∀ g, job.Holds rules g → g.mayReturnSilently = false) : ∀ g, job'.Holds rules g → g.mayReturnSilently = false := by
  induction h with
  | here => exact hjob
  | invoke hinv _ ih =>
    refine ih fun g hg => ?_
    rcases hinv.holds_or hg with hg | ⟨a, b, onMissing, -, rfl⟩
    · exact hjob g hg
    · nomatch hjob _ .refl

/-- In a grammar without such units nothing that is invoked goes back without a report. -/
theorem not_goesBackSilently_of_invokedAt {g : Grammar} (hg : ∀ h, g.Part rules h → h.mayReturnSilently = false)
    (h : InvokedAt rules (.unit g) s path job' s') : ¬GoesBackSilently rules job' s' := by
  have hparts := h.not_mayReturnSilently hg
  refine not_goesBackSilently ?_ ?_
  · rintro a rfl
    nomatch hparts _ .refl
  · rintro a next held rfl
    nomatch hparts _ .refl

/-! ## The candidates of an alternation -/

/-- What is left in the trace by a candidate that is given up: what it did itself, the report, and the return. -/
def Trace.givenUp (s u : σ) (index : Nat) (tr : Trace) : Trace :=
  .opened s ++ (tr ++ (.event (.alternativeMissed index) ++ .rewound u))

/-- Candidates are tried one after the other, and `k` of them are given up: the one at `i` is started in `place i`, does what `did i`
records, and fails softly. Each is reported by its number, once, before the next one is tried. Then `last` is done by the candidate that
comes next, which matches or fails hard; or there is none, and nothing is done. The number of the first one is `index`. -/
structure GivesUpInTurn (rules : Rules) (index : Nat) (gs : List Grammar) (s : σ) (o : Outcome Value) (t : σ) (tr : Trace) (k : Nat)
    (place : Nat → σ) (did : Nat → Trace) (last : Trace) : Prop where
  start : place 0 = s
  missed : ∀ i < k, ∃ g u, gs[i]? = some g ∧ Runs rules (.unit g) (place i) .soft u (did i) ∧
    Context.restore u (Context.backup (place i)) = .ok (place (i + 1))
  trace : tr = ((List.range k).map fun i => .givenUp (place i) (place (i + 1)) (i + index) (did i)).foldr (· ++ ·) last
  stops : k = gs.length ∧ o = .soft ∧ t = place k ∧ last = .nil ∨
    ∃ g tr', gs[k]? = some g ∧ Runs rules (.unit g) (place k) o t tr' ∧ o.isSoft = false ∧ last = .opened (place k) ++ tr'

/-- The candidates of an alternation are tried one after the other. -/
theorem Runs.givesUpInTurn {index : Nat} {gs : List Grammar} (h : Runs rules (.candidates index gs) s o t tr) :
    ∃ k place did last, GivesUpInTurn rules index gs s o t tr k place did last := by
  induction gs generalizing index s tr with
  | nil =>
    cases h
    exact ⟨0, fun _ => t, fun _ => .nil, .nil, rfl, nofun, rfl, .inl ⟨rfl, rfl, rfl, rfl⟩⟩
  | cons g gs ih =>
    cases h with
    | candidates_here hrun ho => exact ⟨0, fun _ => s, fun _ => .nil, _, rfl, nofun, rfl, .inr ⟨g, _, rfl, hrun, ho, rfl⟩⟩
    | @candidates_next _ _ _ _ _ _ _ _ tr₁ _ hrun hr hrest =>
      obtain ⟨k, place, did, last, rfl, hmissed, htrace, hstops⟩ := ih hrest
      refine ⟨k + 1, fun i => i.casesOn s place, fun i => i.casesOn tr₁ did, last, rfl, fun i hi => ?_, ?_, ?_⟩
      · cases i with
        | zero => exact ⟨g, _, rfl, hrun, hr⟩
        | succ i => exact hmissed i (Nat.lt_of_succ_lt_succ hi)
      · have hnumber : ∀ i, i + 1 + index = i + (index + 1) := fun i => by omega
        rw [htrace, List.range_succ_eq_map, List.map_cons, List.map_map, List.foldr_cons]
        simp only [Trace.givenUp, Function.comp_def, hnumber, Nat.zero_add, Trace.append_assoc]
        rfl
      · rcases hstops with ⟨rfl, ho, ht, hlast⟩ | hnext
        · exact .inl ⟨rfl, ho, ht, hlast⟩
        · exact .inr hnext

end

/-- In every parse that ends, however it ends, the returns to remembered places are as many as the reports of returns, and one more for
each optional unit whose part is absent and each `bind` of which the selected unit fails softly; so they are exactly as many in a grammar
that has no such unit. And wherever an alternation is tried, it reports the numbers of the candidates that come before the one that matches
or fails hard, in their order and once each, or those of all its candidates if it fails softly. -/
theorem returns_reported {σ : Type} [Context σ] [MovingContext σ] (rules : Rules) (g : Grammar) {fuel : Nat} {s t : σ}
    {o : Outcome Value} {tr : Trace} (heval : (g.eval rules fuel).run s = .ok ⟨o, t, tr⟩) :
    ((∀ h, g.Part rules h → h.mayReturnSilently = false) → tr.returns = tr.reports) ∧
      (tr.returns : ENat) = tr.reports + (occurrences rules (FindsAbsent rules) (.unit g) s).encard +
        (occurrences rules (MissesSelected rules) (.unit g) s).encard ∧
      ∀ path gs s', InvokedAt rules (.unit g) s path (.unit (.oneOf gs)) s' →
        ∃ before after o' t' tr', tr = before ++ (tr' ++ after) ∧
          ∃ k place did last, GivesUpInTurn rules 0 gs s' o' t' tr' k place did last := by
  have hrun : Runs rules (.unit g) s o t tr := runs_iff_eval.2 ⟨fuel, heval⟩
  obtain ⟨n, hn, htr⟩ := hrun.tallies
  have hreturns : tr.returns = tr.reports + n := by
    simp only [Trace.unreported, Job.due] at htr
    omega
  refine ⟨fun hloud => ?_, ?_, fun path gs s' hat => ?_⟩
  · have hempty : occurrences rules (GoesBackSilently rules) (.unit g) s = ∅ := by
      rw [Set.eq_empty_iff_forall_notMem]
      rintro path ⟨_, _, hat, hsilent⟩
      exact not_goesBackSilently_of_invokedAt hloud hat hsilent
    rw [hempty, Set.encard_empty] at hn
    rw [hreturns, Nat.cast_eq_zero.1 hn.symm, Nat.add_zero]
  · have hdisjoint : ∀ job (s : σ), FindsAbsent rules job s → ¬MissesSelected rules job s := by
      intro job s habsent hmissing
      cases habsent
      nomatch hmissing
    rw [hreturns, Nat.cast_add, add_assoc, ← encard_occurrences_or hdisjoint]
    exact congrArg _ hn.symm
  · obtain ⟨before, hreach⟩ := hat.reaches
    obtain ⟨o', t', tr', after, hrun', htrace⟩ := hrun.of_reaches hreach
    cases hrun' with
    | oneOf hcandidates => exact ⟨before, after, o', t', tr', htrace, hcandidates.givesUpInTurn⟩

/-! ### An optional letter before another one -/

/-- The letter `b` after an optional `x`, or else the letter `a`. -/
def afterOptional : Grammar :=
  .oneOf [.bind (.maybe (.pop (· == .char 'x'))) (fun _ => .pop (· == .char 'b')) [], .pop (· == .char 'a')]

/-- The letter `b`, or else the letter `a`. -/
def eitherLetter : Grammar :=
  .choose (.pop (· == .char 'b')) (.pop (· == .char 'a'))

/-- A choice between two letters has no such unit. -/
theorem eitherLetter_loud {h : Grammar} (hpart : eitherLetter.Part (fun _ => none) h) : h.mayReturnSilently = false := by
  rcases Relation.ReflTransGen.cases_head hpart with rfl | ⟨letter, hletter, hpart⟩
  · rfl
  cases hletter with
  | choose_first | choose_second =>
    rcases Relation.ReflTransGen.cases_head hpart with rfl | ⟨_, hchild, -⟩
    · rfl
    · nomatch hchild

/-- On `a` the optional letter is absent, the `bind` goes back for want of `b`, and the first candidate is given up: three returns, of
which one is reported. In the grammar with neither an optional unit nor a `bind` the only return is reported. -/
theorem afterOptional_returns :
    (∃ t tr, (afterOptional.eval (fun _ => none) 4).run (Text.ofString "a") = .ok ⟨.matched (.char 'a'), t, tr⟩ ∧
      3 = 1 + (occurrences (fun _ => none) (FindsAbsent fun _ => none) (.unit afterOptional) (Text.ofString "a")).encard +
        (occurrences (fun _ => none) (MissesSelected fun _ => none) (.unit afterOptional) (Text.ofString "a")).encard) ∧
      ∃ t tr, (eitherLetter.eval (fun _ => none) 2).run (Text.ofString "a") = .ok ⟨.matched (.char 'a'), t, tr⟩ ∧ tr.returns = 1 ∧
        tr.returns = tr.reports := by
  have hoptional : ((afterOptional.eval (fun _ => none) 4).run (Text.ofString "a")).toOption.map
      (fun r => (r.value, r.trace.returns, r.trace.reports)) = some (.matched (.char 'a'), 3, 1) := by decide +kernel
  have hletter : ((eitherLetter.eval (fun _ => none) 2).run (Text.ofString "a")).toOption.map
      (fun r => (r.value, r.trace.returns)) = some (.matched (.char 'a'), 1) := by decide +kernel
  constructor
  · obtain ⟨_, t, tr, heval, hread⟩ := Engine.exists_report hoptional
    obtain ⟨rfl, hcounts⟩ := Prod.mk.inj hread
    obtain ⟨hreturns, hreports⟩ := Prod.mk.inj hcounts
    have h := (returns_reported (fun _ => none) afterOptional heval).2.1
    rw [show tr.returns = 3 from hreturns, show tr.reports = 1 from hreports] at h
    exact ⟨t, tr, heval, h⟩
  · obtain ⟨_, t, tr, heval, hread⟩ := Engine.exists_report hletter
    obtain ⟨rfl, hreturns⟩ := Prod.mk.inj hread
    exact ⟨t, tr, heval, hreturns, (returns_reported (fun _ => none) eitherLetter heval).1 fun _ => eitherLetter_loud⟩

end Backtrack
