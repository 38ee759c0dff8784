import Backtrack.Grammar.Eval

/-!
# Runs of a grammar

`Grammar.eval` runs a grammar with fuel. Here the same runs are given as an inductive relation: `Runs` has one rule for each
way in which a unit can go, with the runs of its parts as premises, so that a statement about all runs is an induction over
the rules.
-/

namespace Backtrack

namespace Outcome

variable {α : Type}

/-- Whether the unit matched. -/
def isMatch : Outcome α → Bool
  | .matched _ => true
  | _ => false

/-- Whether the unit failed softly. -/
def isSoft : Outcome α → Bool
  | .soft => true
  | _ => false

/-- Whether the unit failed hard. -/
def isHard : Outcome α → Bool
  | .hard _ => true
  | _ => false

/-- What did not match failed, softly or hard. -/
theorem isMatch_eq_false_iff {o : Outcome α} : o.isMatch = false ↔ o = .soft ∨ ∃ failure, o = .hard failure := by
  cases o <;> simp [isMatch]

/-- There is no value to convert where the unit did not match. -/
theorem map_of_isMatch_eq_false {o : Outcome α} (ho : o.isMatch = false) (f : α → α) : o.map f = o := by
  cases o with
  | matched => nomatch ho
  | soft | hard => rfl

/-- What did not fail softly matched or failed hard. -/
theorem isSoft_eq_false_iff {o : Outcome α} : o.isSoft = false ↔ (∃ v, o = .matched v) ∨ ∃ failure, o = .hard failure := by
  cases o <;> simp [isSoft]

/-- An outcome is no hard failure exactly when no failure is its own. -/
theorem isHard_eq_false_iff {o : Outcome α} : o.isHard = false ↔ ∀ failure, o ≠ .hard failure := by
  cases o <;> simp [isHard]

end Outcome

/-- The trace of a call that remembers the place. -/
def Trace.opened {σ : Type} [Context σ] (s : σ) : Trace :=
  .one (.call (.backup (Context.consumed s)))

/-- The trace of a call that goes back to a remembered place. -/
def Trace.rewound {σ : Type} [Context σ] (s : σ) : Trace :=
  .one (.call (.restore (Context.consumed s)))

/-- The trace of one event. -/
def Trace.event (e : Event) : Trace :=
  .one (.event e)

/-! ## Computations that end well -/

namespace Engine

variable {σ α β : Type}

/-- A sequence ends well exactly when both of its parts do, the second where the first ended. -/
theorem run_bind_eq_ok {x : Engine σ α} {f : α → Engine σ β} {s u : σ} {b : β} {tr : Trace} :
    (x >>= f).run s = .ok ⟨b, u, tr⟩ ↔
      ∃ a t tr₁, x.run s = .ok ⟨a, t, tr₁⟩ ∧ ∃ tr₂, (f a).run t = .ok ⟨b, u, tr₂⟩ ∧ tr₁ ++ tr₂ = tr := by
  rw [run_bind]
  constructor
  · intro h
    split at h
    · nomatch h
    · next r hx =>
      split at h
      · nomatch h
      · next r' hf =>
        cases h
        exact ⟨r.value, r.context, r.trace, hx, r'.trace, hf, rfl⟩
  · rintro ⟨a, t, tr₁, hx, tr₂, hf, rfl⟩
    simp only [hx, hf]

/-- A computation of whose report something can be computed has ended. -/
theorem exists_report {read : Report σ α → β} {x : Engine σ α} {s : σ} {b : β}
    (h : (x.run s).toOption.map read = some b) : ∃ a t tr, x.run s = .ok ⟨a, t, tr⟩ ∧ read ⟨a, t, tr⟩ = b := by
  cases hrun : x.run s with
  | error reason =>
    rw [hrun] at h
    nomatch h
  | ok r =>
    rw [hrun] at h
    exact ⟨r.value, r.context, r.trace, rfl, Option.some.inj h⟩

/-- A computation that does nothing ends where it began, with an empty trace. -/
theorem run_pure_eq_ok {a b : α} {s t : σ} {tr : Trace} :
    (pure a : Engine σ α).run s = .ok ⟨b, t, tr⟩ ↔ a = b ∧ s = t ∧ .nil = tr := by
  simp

/-- An event is all that is reported, and the context stays. -/
theorem run_emit_eq_ok {e : Event} {x : Unit} {s t : σ} {tr : Trace} :
    (emit e).run s = .ok ⟨x, t, tr⟩ ↔ s = t ∧ .event e = tr := by
  simp [run_emit, Trace.event]

variable [Context σ]

/-- Remembering a place yields the place, and the context stays. -/
theorem run_backup_eq_ok {saved : Context.Snapshot σ} {s t : σ} {tr : Trace} :
    backup.run s = .ok ⟨saved, t, tr⟩ ↔ Context.backup s = saved ∧ s = t ∧ .opened s = tr := by
  simp [run_backup, Trace.opened]

/-- Going back ends where the context says, and is reported there. -/
theorem run_restore_eq_ok {saved : Context.Snapshot σ} {x : Unit} {s t : σ} {tr : Trace} :
    (restore saved).run s = .ok ⟨x, t, tr⟩ ↔ Context.restore s saved = .ok t ∧ .rewound t = tr := by
  cases h : Context.restore s saved with
  | error reason => simp [run, restore, h]
  | ok u =>
    rw [run_restore h]
    constructor
    · intro hr
      cases hr
      exact ⟨rfl, rfl⟩
    · rintro ⟨hu, rfl⟩
      cases hu
      rfl

/-- A computation that first remembers the place. -/
theorem run_backup_bind_eq_ok {f : Context.Snapshot σ → Engine σ α} {s t : σ} {a : α} {tr : Trace} :
    (backup >>= f).run s = .ok ⟨a, t, tr⟩ ↔
      ∃ tr', (f (Context.backup s)).run s = .ok ⟨a, t, tr'⟩ ∧ .opened s ++ tr' = tr := by
  rw [run_bind_eq_ok]
  constructor
  · rintro ⟨_, _, _, hb, tr', hf, rfl⟩
    obtain ⟨rfl, rfl, rfl⟩ := run_backup_eq_ok.1 hb
    exact ⟨tr', hf, rfl⟩
  · rintro ⟨tr', hf, rfl⟩
    exact ⟨_, _, _, run_backup_eq_ok.2 ⟨rfl, rfl, rfl⟩, tr', hf, rfl⟩

/-- A computation that goes back to a remembered place, reports why, and tries something else. -/
theorem run_backtrack_eq_ok {e : Event} {saved : Context.Snapshot σ} {x : Engine σ α} {s u : σ} {a : α} {tr : Trace} :
    (do emit e; restore saved; x : Engine σ α).run s = .ok ⟨a, u, tr⟩ ↔
      ∃ t tr', Context.restore s saved = .ok t ∧ x.run t = .ok ⟨a, u, tr'⟩ ∧ .event e ++ (.rewound t ++ tr') = tr := by
  simp only [run_bind_eq_ok, run_emit_eq_ok, run_restore_eq_ok]
  constructor
  · rintro ⟨_, _, _, ⟨rfl, rfl⟩, _, ⟨_, t, _, ⟨hr, rfl⟩, tr', hx, rfl⟩, rfl⟩
    exact ⟨t, tr', hr, hx, rfl⟩
  · rintro ⟨t, tr', hr, hx, rfl⟩
    exact ⟨(), s, _, ⟨rfl, rfl⟩, _, ⟨(), t, _, ⟨hr, rfl⟩, tr', hx, rfl⟩, rfl⟩

/-- A computation that goes back to a remembered place and is done. -/
theorem run_restore_pure_eq_ok {saved : Context.Snapshot σ} {s u : σ} {a b : α} {tr : Trace} :
    (do restore saved; return a : Engine σ α).run s = .ok ⟨b, u, tr⟩ ↔
      Context.restore s saved = .ok u ∧ a = b ∧ .rewound u = tr := by
  simp only [run_bind_eq_ok, run_restore_eq_ok, run_pure_eq_ok]
  constructor
  · rintro ⟨_, t, _, ⟨hr, rfl⟩, _, ⟨rfl, rfl, rfl⟩, rfl⟩
    exact ⟨hr, rfl, (Trace.append_nil _).symm⟩
  · rintro ⟨hr, rfl, rfl⟩
    exact ⟨(), u, _, ⟨hr, rfl⟩, _, ⟨rfl, rfl, rfl⟩, Trace.append_nil _⟩

end Engine

/-! ## Jobs and their runs -/

/-- What a parse is busy with: a unit, the candidates of an alternation from the one numbered `index` on, or the turns of a
repetition. -/
inductive Job where
  | unit (g : Grammar)
  | candidates (index : Nat) (gs : List Grammar)
  | turns (base : Grammar)

section

variable {σ : Type} [Context σ]

/-- `Runs rules job s o t tr`: from the context `s` the job ends in the outcome `o`, leaves the context `t`, and does what the
trace `tr` records. -/
inductive Runs (rules : Rules) : Job → σ → Outcome Value → σ → Trace → Prop where
  | pop {pred : Value → Bool} {s t : σ} {o : Outcome Value} {tr : Trace} :
      (Parser.pop pred).run s = .ok ⟨o, t, tr⟩ → Runs rules (.unit (.pop pred)) s o t tr
  | apply {f : Action (Outcome Value)} {s t : σ} {o : Outcome Value} {tr : Trace} :
      f.run.run s = .ok ⟨o, t, tr⟩ → Runs rules (.unit (.apply f)) s o t tr
  /-- The head of a sequence does not match. -/
  | seq_stop {a b : Grammar} {onMissing : Action Failure} {s t : σ} {o : Outcome Value} {tr : Trace} :
      Runs rules (.unit a) s o t tr → o.isMatch = false → Runs rules (.unit (.seq a b onMissing)) s o t tr
  | seq_match {a b : Grammar} {onMissing : Action Failure} {s t u : σ} {v w : Value} {tr₁ tr₂ : Trace} :
      Runs rules (.unit a) s (.matched v) t tr₁ → Runs rules (.unit b) t (.matched w) u tr₂ →
      Runs rules (.unit (.seq a b onMissing)) s (.matched (.pair v w)) u (tr₁ ++ tr₂)
  | seq_hard {a b : Grammar} {onMissing : Action Failure} {s t u : σ} {v : Value} {failure : Failure} {tr₁ tr₂ : Trace} :
      Runs rules (.unit a) s (.matched v) t tr₁ → Runs rules (.unit b) t (.hard failure) u tr₂ →
      Runs rules (.unit (.seq a b onMissing)) s (.hard failure) u (tr₁ ++ tr₂)
  /-- The tail of a sequence is missing. -/
  | seq_escalate {a b : Grammar} {onMissing : Action Failure} {s t u w : σ} {v : Value} {failure : Failure}
      {tr₁ tr₂ tr₃ : Trace} :
      Runs rules (.unit a) s (.matched v) t tr₁ → Runs rules (.unit b) t .soft u tr₂ →
      onMissing.run.run u = .ok ⟨failure, w, tr₃⟩ →
      Runs rules (.unit (.seq a b onMissing)) s (.hard failure) w (tr₁ ++ (tr₂ ++ (tr₃ ++ .event (.tailMissed failure))))
  | bind_stop {a : Grammar} {next : Value → Grammar} {held : List RuleId} {s t : σ} {o : Outcome Value} {tr : Trace} :
      Runs rules (.unit a) s o t tr → o.isMatch = false →
      Runs rules (.unit (.bind a next held)) s o t (.opened s ++ tr)
  | bind_go {a : Grammar} {next : Value → Grammar} {held : List RuleId} {s t u : σ} {v : Value} {o : Outcome Value}
      {tr₁ tr₂ : Trace} :
      Runs rules (.unit a) s (.matched v) t tr₁ → Runs rules (.unit (next v)) t o u tr₂ → o.isSoft = false →
      Runs rules (.unit (.bind a next held)) s o u (.opened s ++ (tr₁ ++ tr₂))
  /-- The unit that the value selected does not match, and what its base consumed is given back. -/
  | bind_back {a : Grammar} {next : Value → Grammar} {held : List RuleId} {s t u w : σ} {v : Value} {tr₁ tr₂ : Trace} :
      Runs rules (.unit a) s (.matched v) t tr₁ → Runs rules (.unit (next v)) t .soft u tr₂ →
      Context.restore u (Context.backup s) = .ok w →
      Runs rules (.unit (.bind a next held)) s .soft w (.opened s ++ (tr₁ ++ (tr₂ ++ .rewound w)))
  | choose_first {a b : Grammar} {s t : σ} {o : Outcome Value} {tr : Trace} :
      Runs rules (.unit a) s o t tr → o.isSoft = false → Runs rules (.unit (.choose a b)) s o t (.opened s ++ tr)
  | choose_second {a b : Grammar} {s t u w : σ} {o : Outcome Value} {tr₁ tr₂ : Trace} :
      Runs rules (.unit a) s .soft t tr₁ → Context.restore t (Context.backup s) = .ok u →
      Runs rules (.unit b) u o w tr₂ →
      Runs rules (.unit (.choose a b)) s o w
        (.opened s ++ (tr₁ ++ (.event .firstAlternativeMissed ++ (.rewound u ++ tr₂))))
  | oneOf {gs : List Grammar} {s t : σ} {o : Outcome Value} {tr : Trace} :
      Runs rules (.candidates 0 gs) s o t tr → Runs rules (.unit (.oneOf gs)) s o t tr
  | candidates_none {index : Nat} {s : σ} : Runs rules (.candidates index []) s .soft s .nil
  | candidates_here {index : Nat} {g : Grammar} {gs : List Grammar} {s t : σ} {o : Outcome Value} {tr : Trace} :
      Runs rules (.unit g) s o t tr → o.isSoft = false →
      Runs rules (.candidates index (g :: gs)) s o t (.opened s ++ tr)
  | candidates_next {index : Nat} {g : Grammar} {gs : List Grammar} {s t u w : σ} {o : Outcome Value} {tr₁ tr₂ : Trace} :
      Runs rules (.unit g) s .soft t tr₁ → Context.restore t (Context.backup s) = .ok u →
      Runs rules (.candidates (index + 1) gs) u o w tr₂ →
      Runs rules (.candidates index (g :: gs)) s o w
        (.opened s ++ (tr₁ ++ (.event (.alternativeMissed index) ++ (.rewound u ++ tr₂))))
  | rescue_primary {a b : Grammar} {s t : σ} {v : Value} {tr : Trace} :
      Runs rules (.unit a) s (.matched v) t tr → Runs rules (.unit (.rescue a b)) s (.matched v) t (.opened s ++ tr)
  | rescue_missed {a b : Grammar} {s t u w : σ} {o : Outcome Value} {tr₁ tr₂ : Trace} :
      Runs rules (.unit a) s .soft t tr₁ → Context.restore t (Context.backup s) = .ok u →
      Runs rules (.unit b) u o w tr₂ →
      Runs rules (.unit (.rescue a b)) s o w (.opened s ++ (tr₁ ++ (.event .primaryMissed ++ (.rewound u ++ tr₂))))
  | rescue_recover {a b : Grammar} {s t u w : σ} {failure : Failure} {o : Outcome Value} {tr₁ tr₂ : Trace} :
      Runs rules (.unit a) s (.hard failure) t tr₁ → Context.restore t (Context.backup s) = .ok u →
      Runs rules (.unit b) u o w tr₂ →
      Runs rules (.unit (.rescue a b)) s o w
        (.opened s ++ (tr₁ ++ (.event (.recovering failure) ++ (.rewound u ++ tr₂))))
  | maybe_present {a : Grammar} {s t : σ} {v : Value} {tr : Trace} :
      Runs rules (.unit a) s (.matched v) t tr →
      Runs rules (.unit (.maybe a)) s (.matched (.opt (some v))) t (.opened s ++ tr)
  | maybe_hard {a : Grammar} {s t : σ} {failure : Failure} {tr : Trace} :
      Runs rules (.unit a) s (.hard failure) t tr → Runs rules (.unit (.maybe a)) s (.hard failure) t (.opened s ++ tr)
  | maybe_absent {a : Grammar} {s t u : σ} {tr : Trace} :
      Runs rules (.unit a) s .soft t tr → Context.restore t (Context.backup s) = .ok u →
      Runs rules (.unit (.maybe a)) s (.matched (.opt none)) u (.opened s ++ (tr ++ .rewound u))
  /-- The optional part of a sequence fails hard. -/
  | maybeThen_stop {a b : Grammar} {onMissing : Action Failure} {s t : σ} {failure : Failure} {tr : Trace} :
      Runs rules (.unit (.maybe a)) s (.hard failure) t tr →
      Runs rules (.unit (.maybeThen a b onMissing)) s (.hard failure) t tr
  | maybeThen_match {a b : Grammar} {onMissing : Action Failure} {s t u : σ} {before w : Value} {tr₁ tr₂ : Trace} :
      Runs rules (.unit (.maybe a)) s (.matched before) t tr₁ → Runs rules (.unit b) t (.matched w) u tr₂ →
      Runs rules (.unit (.maybeThen a b onMissing)) s (.matched (.pair before w)) u (tr₁ ++ tr₂)
  | maybeThen_hard {a b : Grammar} {onMissing : Action Failure} {s t u : σ} {before : Value} {failure : Failure}
      {tr₁ tr₂ : Trace} :
      Runs rules (.unit (.maybe a)) s (.matched before) t tr₁ → Runs rules (.unit b) t (.hard failure) u tr₂ →
      Runs rules (.unit (.maybeThen a b onMissing)) s (.hard failure) u (tr₁ ++ tr₂)
  /-- Both parts are missing. -/
  | maybeThen_absent {a b : Grammar} {onMissing : Action Failure} {s t u : σ} {tr₁ tr₂ : Trace} :
      Runs rules (.unit (.maybe a)) s (.matched (.opt none)) t tr₁ → Runs rules (.unit b) t .soft u tr₂ →
      Runs rules (.unit (.maybeThen a b onMissing)) s .soft u (tr₁ ++ tr₂)
  /-- The optional part is present and the second one is missing. -/
  | maybeThen_escalate {a b : Grammar} {onMissing : Action Failure} {s t u w : σ} {v : Value} {failure : Failure}
      {tr₁ tr₂ tr₃ : Trace} :
      Runs rules (.unit (.maybe a)) s (.matched (.opt (some v))) t tr₁ → Runs rules (.unit b) t .soft u tr₂ →
      onMissing.run.run u = .ok ⟨failure, w, tr₃⟩ →
      Runs rules (.unit (.maybeThen a b onMissing)) s (.hard failure) w
        (tr₁ ++ (tr₂ ++ (tr₃ ++ .event (.nextMissed failure))))
  | turns_stop {a : Grammar} {s t u : σ} {tr : Trace} :
      Runs rules (.unit a) s .soft t tr → Context.restore t (Context.backup s) = .ok u →
      Runs rules (.turns a) s (.matched (.list [])) u (.opened s ++ (tr ++ .rewound u))
  | turns_hard {a : Grammar} {s t : σ} {failure : Failure} {tr : Trace} :
      Runs rules (.unit a) s (.hard failure) t tr → Runs rules (.turns a) s (.hard failure) t (.opened s ++ tr)
  | turns_more {a : Grammar} {s t u : σ} {v : Value} {vs : List Value} {tr₁ tr₂ : Trace} :
      Runs rules (.unit a) s (.matched v) t tr₁ → Runs rules (.turns a) t (.matched (.list vs)) u tr₂ →
      Runs rules (.turns a) s (.matched (.list (v :: vs))) u (.opened s ++ (tr₁ ++ tr₂))
  | turns_more_hard {a : Grammar} {s t u : σ} {v : Value} {failure : Failure} {tr₁ tr₂ : Trace} :
      Runs rules (.unit a) s (.matched v) t tr₁ → Runs rules (.turns a) t (.hard failure) u tr₂ →
      Runs rules (.turns a) s (.hard failure) u (.opened s ++ (tr₁ ++ tr₂))
  | oneOrMany_none {a : Grammar} {s t : σ} {tr : Trace} :
      Runs rules (.turns a) s (.matched (.list [])) t tr →
      Runs rules (.unit (.oneOrMany a)) s .soft t (tr ++ .event (.repetitionStopped 0))
  | oneOrMany_some {a : Grammar} {s t : σ} {v : Value} {vs : List Value} {tr : Trace} :
      Runs rules (.turns a) s (.matched (.list (v :: vs))) t tr →
      Runs rules (.unit (.oneOrMany a)) s (.matched (.list (v :: vs))) t
        (tr ++ .event (.repetitionStopped (vs.length + 1)))
  | oneOrMany_hard {a : Grammar} {s t : σ} {failure : Failure} {tr : Trace} :
      Runs rules (.turns a) s (.hard failure) t tr → Runs rules (.unit (.oneOrMany a)) s (.hard failure) t tr
  | zeroOrMany_some {a : Grammar} {s t : σ} {vs : List Value} {tr : Trace} :
      Runs rules (.turns a) s (.matched (.list vs)) t tr →
      Runs rules (.unit (.zeroOrMany a)) s (.matched (.list vs)) t (tr ++ .event (.repetitionStopped vs.length))
  | zeroOrMany_hard {a : Grammar} {s t : σ} {failure : Failure} {tr : Trace} :
      Runs rules (.turns a) s (.hard failure) t tr → Runs rules (.unit (.zeroOrMany a)) s (.hard failure) t tr
  | map_match {f : Value → Value} {a : Grammar} {s t : σ} {v : Value} {tr : Trace} :
      Runs rules (.unit a) s (.matched v) t tr → Runs rules (.unit (.map f a)) s (.matched (f v)) t tr
  | map_stop {f : Value → Value} {a : Grammar} {s t : σ} {o : Outcome Value} {tr : Trace} :
      Runs rules (.unit a) s o t tr → o.isMatch = false → Runs rules (.unit (.map f a)) s o t tr
  | transform_stop {f : Value → Action (Except Failure Value)} {a : Grammar} {s t : σ} {o : Outcome Value} {tr : Trace} :
      Runs rules (.unit a) s o t tr → o.isMatch = false → Runs rules (.unit (.transform f a)) s o t tr
  | transform_match {f : Value → Action (Except Failure Value)} {a : Grammar} {s t u : σ} {v w : Value}
      {tr₁ tr₂ : Trace} :
      Runs rules (.unit a) s (.matched v) t tr₁ → (f v).run.run t = .ok ⟨.ok w, u, tr₂⟩ →
      Runs rules (.unit (.transform f a)) s (.matched w) u (tr₁ ++ tr₂)
  | transform_hard {f : Value → Action (Except Failure Value)} {a : Grammar} {s t u : σ} {v : Value} {failure : Failure}
      {tr₁ tr₂ : Trace} :
      Runs rules (.unit a) s (.matched v) t tr₁ → (f v).run.run t = .ok ⟨.error failure, u, tr₂⟩ →
      Runs rules (.unit (.transform f a)) s (.hard failure) u (tr₁ ++ tr₂)
  | wrap {how : Wrapper} {a : Grammar} {s t : σ} {o : Outcome Value} {tr : Trace} :
      Runs rules (.unit a) s o t tr → Runs rules (.unit (.wrap how a)) s o t tr
  | link {l : Link} {body : Grammar} {s t : σ} {o : Outcome Value} {tr : Trace} :
      rules l.rule = some body → Runs rules (.unit body) s o t tr → Runs rules (.unit (.link l)) s o t tr
  | link_unbound {l : Link} {s : σ} :
      rules l.rule = none → Runs rules (.unit (.link l)) s (.hard .unboundRecursion) s .nil

/-- The candidates of an alternation run in the same way whatever number the first of them has. -/
theorem Runs.candidates_renumber {rules : Rules} {gs : List Grammar} {i : Nat} (j : Nat) {s t : σ} {o : Outcome Value} {tr : Trace}
    (h : Runs rules (.candidates i gs) s o t tr) : ∃ tr', Runs rules (.candidates j gs) s o t tr' := by
  induction gs generalizing i j s tr with
  | nil =>
    cases h
    exact ⟨_, .candidates_none⟩
  | cons g gs ih =>
    cases h with
    | candidates_here hrun ho => exact ⟨_, .candidates_here hrun ho⟩
    | candidates_next hrun hrestore hrest =>
      obtain ⟨tr', hrest'⟩ := ih (j + 1) hrest
      exact ⟨_, .candidates_next hrun hrestore hrest'⟩

end

end Backtrack
