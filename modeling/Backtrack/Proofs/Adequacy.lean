import Backtrack.Proofs.Runs

/-!
# Runs and the evaluator

The rules of `Runs` and the evaluator with fuel describe the same runs. What the evaluator ends in follows the rules, combinator
by combinator; and what the rules allow, the evaluator does with every amount of fuel from some one on.
-/

namespace Backtrack

section

variable {σ : Type} [Context σ]

/-! ## What the evaluator does follows the rules -/

/-- A missing part is escalated to the failure made on the context, and reported. -/
theorem Parser.run_escalate_eq_ok {α : Type} {event : Failure → Event} {onMissing : Action Failure} {s t : σ}
    {o : Outcome α} {tr : Trace} :
    (Parser.escalate event onMissing).run s = .ok ⟨o, t, tr⟩ ↔
      ∃ failure tr', onMissing.run.run s = .ok ⟨failure, t, tr'⟩ ∧ .hard failure = o ∧
        tr' ++ .event (event failure) = tr := by
  simp only [Parser.escalate, Engine.run_bind_eq_ok, Engine.run_emit_eq_ok, Engine.run_pure_eq_ok]
  constructor
  · rintro ⟨failure, u, tr', hf, _, ⟨_, _, _, ⟨rfl, rfl⟩, _, ⟨rfl, rfl, rfl⟩, rfl⟩, rfl⟩
    exact ⟨failure, tr', hf, rfl, by rw [Trace.append_nil]⟩
  · rintro ⟨failure, tr', hf, rfl, rfl⟩
    exact ⟨failure, t, tr', hf, _, ⟨(), t, _, ⟨rfl, rfl⟩, _, ⟨rfl, rfl, rfl⟩, rfl⟩, by rw [Trace.append_nil]⟩

/-- Whatever the computation `x` ends in is a run of the job. -/
def Follows (rules : Rules) (job : Job) (x : Engine σ (Outcome Value)) : Prop :=
  ∀ ⦃s o t tr⦄, x.run s = .ok ⟨o, t, tr⟩ → Runs rules job s o t tr

namespace Follows

variable {rules : Rules} {a b : Grammar} {p q : Parser σ Value}

/-- A committed sequence goes as the rules for sequences say, if its parts follow theirs. -/
theorem seq {onMissing : Action Failure} (ha : Follows rules (.unit a) p) (hb : Follows rules (.unit b) q) :
    Follows rules (.unit (.seq a b onMissing)) (Parser.seq .pair p q onMissing) := by
  intro s o t tr h
  obtain ⟨o₁, t₁, tr₁, hp, tr', h₁, rfl⟩ := Engine.run_bind_eq_ok.1 h
  cases o₁ with
  | soft | hard =>
    obtain ⟨rfl, rfl, rfl⟩ := Engine.run_pure_eq_ok.1 h₁
    rw [Trace.append_nil]
    exact .seq_stop (ha hp) rfl
  | matched v =>
    obtain ⟨o₂, t₂, tr₂, hq, tr'', h₂, rfl⟩ := Engine.run_bind_eq_ok.1 h₁
    cases o₂ with
    | matched w =>
      obtain ⟨rfl, rfl, rfl⟩ := Engine.run_pure_eq_ok.1 h₂
      rw [Trace.append_nil]
      exact .seq_match (ha hp) (hb hq)
    | hard failure =>
      obtain ⟨rfl, rfl, rfl⟩ := Engine.run_pure_eq_ok.1 h₂
      rw [Trace.append_nil]
      exact .seq_hard (ha hp) (hb hq)
    | soft =>
      obtain ⟨failure, tr₃, hf, rfl, rfl⟩ := Parser.run_escalate_eq_ok.1 h₂
      exact .seq_escalate (ha hp) (hb hq) hf

/-- A unit whose value selects the next one goes as its rules say, if both units follow theirs. -/
theorem bind {next : Value → Grammar} {held : List RuleId} {k : Value → Parser σ Value}
    (ha : Follows rules (.unit a) p) (hk : ∀ v, Follows rules (.unit (next v)) (k v)) :
    Follows rules (.unit (.bind a next held)) (Parser.bind p k) := by
  intro s o t tr h
  obtain ⟨tr', h₁, rfl⟩ := Engine.run_backup_bind_eq_ok.1 h
  obtain ⟨o₁, t₁, tr₁, hp, tr', h₂, rfl⟩ := Engine.run_bind_eq_ok.1 h₁
  cases o₁ with
  | soft | hard =>
    obtain ⟨rfl, rfl, rfl⟩ := Engine.run_pure_eq_ok.1 h₂
    rw [Trace.append_nil]
    exact .bind_stop (ha hp) rfl
  | matched v =>
    obtain ⟨o₂, t₂, tr₂, hq, tr'', h₃, rfl⟩ := Engine.run_bind_eq_ok.1 h₂
    cases o₂ with
    | matched | hard =>
      obtain ⟨rfl, rfl, rfl⟩ := Engine.run_pure_eq_ok.1 h₃
      rw [Trace.append_nil]
      exact .bind_go (ha hp) (hk v hq) rfl
    | soft =>
      obtain ⟨hr, rfl, rfl⟩ := Engine.run_restore_pure_eq_ok.1 h₃
      exact .bind_back (ha hp) (hk v hq) hr

/-- A choice runs its second unit where the first one failed softly. -/
theorem choose (ha : Follows rules (.unit a) p) (hb : Follows rules (.unit b) q) :
    Follows rules (.unit (.choose a b)) (Parser.choose p q) := by
  intro s o t tr h
  obtain ⟨tr', h₁, rfl⟩ := Engine.run_backup_bind_eq_ok.1 h
  obtain ⟨o₁, t₁, tr₁, hp, tr', h₂, rfl⟩ := Engine.run_bind_eq_ok.1 h₁
  cases o₁ with
  | matched | hard =>
    obtain ⟨rfl, rfl, rfl⟩ := Engine.run_pure_eq_ok.1 h₂
    rw [Trace.append_nil]
    exact .choose_first (ha hp) rfl
  | soft =>
    obtain ⟨u, tr₂, hr, hq, rfl⟩ := Engine.run_backtrack_eq_ok.1 h₂
    exact .choose_second (ha hp) hr (hb hq)

/-- Candidates are tried one after the other, whatever number the first of them has. -/
theorem candidates {eval : Grammar → Parser σ Value} (heval : ∀ g, Follows rules (.unit g) (eval g)) (gs : List Grammar) :
    ∀ index, Follows rules (.candidates index gs) (Parser.oneOfFrom index (gs.map eval)) := by
  induction gs with
  | nil =>
    intro index s o t tr h
    obtain ⟨rfl, rfl, rfl⟩ := Engine.run_pure_eq_ok.1 h
    exact .candidates_none
  | cons g gs ih =>
    intro index s o t tr h
    obtain ⟨tr', h₁, rfl⟩ := Engine.run_backup_bind_eq_ok.1 h
    obtain ⟨o₁, t₁, tr₁, hp, tr', h₂, rfl⟩ := Engine.run_bind_eq_ok.1 h₁
    cases o₁ with
    | matched | hard =>
      obtain ⟨rfl, rfl, rfl⟩ := Engine.run_pure_eq_ok.1 h₂
      rw [Trace.append_nil]
      exact .candidates_here (heval g hp) rfl
    | soft =>
      obtain ⟨u, tr₂, hr, hq, rfl⟩ := Engine.run_backtrack_eq_ok.1 h₂
      exact .candidates_next (heval g hp) hr (ih (index + 1) hq)

/-- A recovering unit runs its fallback after either kind of failure. -/
theorem rescue (ha : Follows rules (.unit a) p) (hb : Follows rules (.unit b) q) :
    Follows rules (.unit (.rescue a b)) (Parser.rescue p q) := by
  intro s o t tr h
  obtain ⟨tr', h₁, rfl⟩ := Engine.run_backup_bind_eq_ok.1 h
  obtain ⟨o₁, t₁, tr₁, hp, tr', h₂, rfl⟩ := Engine.run_bind_eq_ok.1 h₁
  cases o₁ with
  | matched v =>
    obtain ⟨rfl, rfl, rfl⟩ := Engine.run_pure_eq_ok.1 h₂
    rw [Trace.append_nil]
    exact .rescue_primary (ha hp)
  | soft =>
    obtain ⟨u, tr₂, hr, hq, rfl⟩ := Engine.run_backtrack_eq_ok.1 h₂
    exact .rescue_missed (ha hp) hr (hb hq)
  | hard failure =>
    obtain ⟨u, tr₂, hr, hq, rfl⟩ := Engine.run_backtrack_eq_ok.1 h₂
    exact .rescue_recover (ha hp) hr (hb hq)

/-- An optional part, whatever its presence is made into. -/
theorem maybe_part {β : Type} {f : Option Value → β} (ha : Follows rules (.unit a) p) {s t : σ} {o : Outcome β} {tr : Trace}
    (h : (Parser.maybe f p).run s = .ok ⟨o, t, tr⟩) :
    ∃ part : Outcome (Option Value), part.map f = o ∧ Runs rules (.unit (.maybe a)) s (part.map .opt) t tr := by
  obtain ⟨tr', h₁, rfl⟩ := Engine.run_backup_bind_eq_ok.1 h
  obtain ⟨o₁, t₁, tr₁, hp, tr', h₂, rfl⟩ := Engine.run_bind_eq_ok.1 h₁
  cases o₁ with
  | matched v =>
    obtain ⟨rfl, rfl, rfl⟩ := Engine.run_pure_eq_ok.1 h₂
    rw [Trace.append_nil]
    exact ⟨.matched (some v), rfl, .maybe_present (ha hp)⟩
  | hard failure =>
    obtain ⟨rfl, rfl, rfl⟩ := Engine.run_pure_eq_ok.1 h₂
    rw [Trace.append_nil]
    exact ⟨.hard failure, rfl, .maybe_hard (ha hp)⟩
  | soft =>
    obtain ⟨hr, rfl, rfl⟩ := Engine.run_restore_pure_eq_ok.1 h₂
    exact ⟨.matched none, rfl, .maybe_absent (ha hp) hr⟩

/-- An optional unit follows its rules. -/
theorem maybe (ha : Follows rules (.unit a) p) : Follows rules (.unit (.maybe a)) (Parser.maybe .opt p) := by
  intro s o t tr h
  obtain ⟨part, rfl, hrun⟩ := ha.maybe_part h
  exact hrun

/-- An optional part with the unit after it goes as its rules say, if both follow theirs. -/
theorem maybeThen {onMissing : Action Failure} (ha : Follows rules (.unit a) p) (hb : Follows rules (.unit b) q) :
    Follows rules (.unit (.maybeThen a b onMissing))
      (Parser.maybeThen (fun before v => .pair (.opt before) v) p q onMissing) := by
  intro s o t tr h
  obtain ⟨o₁, t₁, tr₁, hp, tr', h₁, rfl⟩ := Engine.run_bind_eq_ok.1 h
  obtain ⟨part, hpart, hrun⟩ := ha.maybe_part hp
  rw [Outcome.map_id] at hpart
  subst hpart
  cases part with
  | soft => nomatch hrun
  | hard failure =>
    obtain ⟨rfl, rfl, rfl⟩ := Engine.run_pure_eq_ok.1 h₁
    rw [Trace.append_nil]
    exact .maybeThen_stop hrun
  | matched before =>
    obtain ⟨o₂, t₂, tr₂, hq, tr'', h₂, rfl⟩ := Engine.run_bind_eq_ok.1 h₁
    cases o₂ with
    | matched w =>
      obtain ⟨rfl, rfl, rfl⟩ := Engine.run_pure_eq_ok.1 h₂
      rw [Trace.append_nil]
      exact .maybeThen_match hrun (hb hq)
    | hard failure =>
      obtain ⟨rfl, rfl, rfl⟩ := Engine.run_pure_eq_ok.1 h₂
      rw [Trace.append_nil]
      exact .maybeThen_hard hrun (hb hq)
    | soft =>
      cases before with
      | none =>
        obtain ⟨rfl, rfl, rfl⟩ := Engine.run_pure_eq_ok.1 h₂
        rw [Trace.append_nil]
        exact .maybeThen_absent hrun (hb hq)
      | some v =>
        obtain ⟨failure, tr₃, hf, rfl, rfl⟩ := Parser.run_escalate_eq_ok.1 h₂
        exact .maybeThen_escalate hrun (hb hq) hf

/-- The turns of a repetition, in terms of the values gathered. -/
theorem gather (ha : Follows rules (.unit a) p) (bound : Nat) :
    ∀ {s t : σ} {x : Except Failure (List Value)} {tr : Trace}, (Parser.gather p bound).run s = .ok ⟨x, t, tr⟩ →
      Runs rules (.turns a) s (.ofExcept (x.map .list)) t tr := by
  induction bound with
  | zero => intro s t x tr h; cases h
  | succ bound ih =>
    intro s t x tr h
    obtain ⟨tr', h₁, rfl⟩ := Engine.run_backup_bind_eq_ok.1 h
    obtain ⟨o₁, t₁, tr₁, hp, tr', h₂, rfl⟩ := Engine.run_bind_eq_ok.1 h₁
    cases o₁ with
    | hard failure =>
      obtain ⟨rfl, rfl, rfl⟩ := Engine.run_pure_eq_ok.1 h₂
      rw [Trace.append_nil]
      exact .turns_hard (ha hp)
    | soft =>
      obtain ⟨hr, rfl, rfl⟩ := Engine.run_restore_pure_eq_ok.1 h₂
      exact .turns_stop (ha hp) hr
    | matched v =>
      obtain ⟨y, t₂, tr₂, hg, tr'', h₃, rfl⟩ := Engine.run_bind_eq_ok.1 h₂
      obtain ⟨rfl, rfl, rfl⟩ := Engine.run_pure_eq_ok.1 h₃
      rw [Trace.append_nil]
      cases y with
      | ok vs => exact .turns_more (ha hp) (ih hg)
      | error failure => exact .turns_more_hard (ha hp) (ih hg)

/-- A repetition gathers, and reports the number of its turns unless it failed. -/
theorem collect (ha : Follows rules (.unit a) p) {bound : Nat} {s t : σ} {x : Except Failure (List Value)} {tr : Trace}
    (h : (Parser.collect p bound).run s = .ok ⟨x, t, tr⟩) :
    (∃ failure, x = .error failure ∧ Runs rules (.turns a) s (.hard failure) t tr) ∨
      ∃ vs tr', x = .ok vs ∧ Runs rules (.turns a) s (.matched (.list vs)) t tr' ∧
        tr = tr' ++ .event (.repetitionStopped vs.length) := by
  obtain ⟨y, t₁, tr₁, hg, tr', h₁, rfl⟩ := Engine.run_bind_eq_ok.1 h
  have hrun := ha.gather bound hg
  cases y with
  | error failure =>
    obtain ⟨rfl, rfl, rfl⟩ := Engine.run_pure_eq_ok.1 h₁
    rw [Trace.append_nil]
    exact .inl ⟨failure, rfl, hrun⟩
  | ok vs =>
    obtain ⟨_, _, _, he, _, h₂, rfl⟩ := Engine.run_bind_eq_ok.1 h₁
    obtain ⟨rfl, rfl⟩ := Engine.run_emit_eq_ok.1 he
    obtain ⟨rfl, rfl, rfl⟩ := Engine.run_pure_eq_ok.1 h₂
    rw [Trace.append_nil]
    exact .inr ⟨vs, tr₁, rfl, hrun, rfl⟩

/-- A repetition of at least one match fails softly exactly where no turn matched. -/
theorem oneOrMany (ha : Follows rules (.unit a) p) (bound : Nat) :
    Follows rules (.unit (.oneOrMany a)) (Parser.oneOrMany .list p bound) := by
  intro s o t tr h
  obtain ⟨x, t₁, tr₁, hc, tr', h₁, rfl⟩ := Engine.run_bind_eq_ok.1 h
  rcases ha.collect hc with ⟨failure, rfl, hrun⟩ | ⟨vs, tr'', rfl, hrun, rfl⟩
  · obtain ⟨rfl, rfl, rfl⟩ := Engine.run_pure_eq_ok.1 h₁
    rw [Trace.append_nil]
    exact .oneOrMany_hard hrun
  · cases vs with
    | nil =>
      obtain ⟨rfl, rfl, rfl⟩ := Engine.run_pure_eq_ok.1 h₁
      rw [Trace.append_nil]
      exact .oneOrMany_none hrun
    | cons v vs =>
      obtain ⟨rfl, rfl, rfl⟩ := Engine.run_pure_eq_ok.1 h₁
      rw [Trace.append_nil]
      exact .oneOrMany_some hrun

/-- A repetition of any number of matches does not fail softly. -/
theorem zeroOrMany (ha : Follows rules (.unit a) p) (bound : Nat) :
    Follows rules (.unit (.zeroOrMany a)) (Parser.zeroOrMany .list p bound) := by
  intro s o t tr h
  obtain ⟨x, t₁, tr₁, hc, tr', h₁, rfl⟩ := Engine.run_bind_eq_ok.1 h
  rcases ha.collect hc with ⟨failure, rfl, hrun⟩ | ⟨vs, tr'', rfl, hrun, rfl⟩
  · obtain ⟨rfl, rfl, rfl⟩ := Engine.run_pure_eq_ok.1 h₁
    rw [Trace.append_nil]
    exact .zeroOrMany_hard hrun
  · obtain ⟨rfl, rfl, rfl⟩ := Engine.run_pure_eq_ok.1 h₁
    rw [Trace.append_nil]
    exact .zeroOrMany_some hrun

/-- A conversion of the value follows the rules of the unit. -/
theorem map {f : Value → Value} (ha : Follows rules (.unit a) p) : Follows rules (.unit (.map f a)) (Parser.map f p) := by
  intro s o t tr h
  obtain ⟨o₁, t₁, tr₁, hp, tr', h₁, rfl⟩ := Engine.run_bind_eq_ok.1 h
  obtain ⟨rfl, rfl, rfl⟩ := Engine.run_pure_eq_ok.1 h₁
  rw [Trace.append_nil]
  cases o₁ with
  | matched v => exact .map_match (ha hp)
  | soft | hard => exact .map_stop (ha hp) rfl

/-- An action on the value is run after a match only. -/
theorem transform {f : Value → Action (Except Failure Value)} (ha : Follows rules (.unit a) p) :
    Follows rules (.unit (.transform f a)) (Parser.transform f p) := by
  intro s o t tr h
  obtain ⟨o₁, t₁, tr₁, hp, tr', h₁, rfl⟩ := Engine.run_bind_eq_ok.1 h
  cases o₁ with
  | soft | hard =>
    obtain ⟨rfl, rfl, rfl⟩ := Engine.run_pure_eq_ok.1 h₁
    rw [Trace.append_nil]
    exact .transform_stop (ha hp) rfl
  | matched v =>
    obtain ⟨x, t₂, tr₂, hf, tr'', h₂, rfl⟩ := Engine.run_bind_eq_ok.1 h₁
    obtain ⟨rfl, rfl, rfl⟩ := Engine.run_pure_eq_ok.1 h₂
    rw [Trace.append_nil]
    cases x with
    | ok w => exact .transform_match (ha hp) hf
    | error failure => exact .transform_hard (ha hp) hf

end Follows

/-- The evaluator of a grammar follows the rules of its units. -/
theorem eval_follows (rules : Rules) (fuel : Nat) : ∀ g : Grammar, Follows (σ := σ) rules (.unit g) (g.eval rules fuel) := by
  induction fuel with
  | zero => intro g s o t tr h; cases h
  | succ n ih =>
    intro g
    cases g with
    | pop pred => exact fun _ _ _ _ h => .pop h
    | apply f => exact fun _ _ _ _ h => .apply h
    | seq a b onMissing => exact (ih a).seq (ih b)
    | bind a next held => exact (ih a).bind fun v => ih (next v)
    | choose a b => exact (ih a).choose (ih b)
    | oneOf gs => exact fun _ _ _ _ h => .oneOf (Follows.candidates ih gs 0 h)
    | rescue a b => exact (ih a).rescue (ih b)
    | maybe a => exact (ih a).maybe
    | maybeThen a b onMissing => exact (ih a).maybeThen (ih b)
    | oneOrMany a => exact (ih a).oneOrMany n
    | zeroOrMany a => exact (ih a).zeroOrMany n
    | map f a => exact (ih a).map
    | transform f a => exact (ih a).transform
    | wrap how a => exact fun _ _ _ _ h => .wrap (ih a h)
    | link l =>
      intro s o t tr h
      cases hbody : rules l.rule with
      | none =>
        rw [Grammar.eval_link_unbound hbody] at h
        cases h
        exact .link_unbound hbody
      | some body =>
        rw [Grammar.eval_link hbody] at h
        exact .link hbody (ih body h)

/-! ## Runs need only so much fuel -/

/-- The computation of a job; a repetition makes at most `bound` turns. -/
def Job.eval (rules : Rules) (fuel bound : Nat) : Job → Engine σ (Outcome Value)
  | .unit g => g.eval rules fuel
  | .candidates index gs => Parser.oneOfFrom index (gs.map fun g => g.eval rules fuel)
  | .turns base => do return .ofExcept ((← Parser.gather (base.eval rules fuel) bound).map .list)

/-- `P` holds of every number from some one on. -/
def Lasts (P : Nat → Prop) : Prop :=
  ∃ enough, ∀ n ≥ enough, P n

/-- What holds from some number on and from another one on holds together from the larger one on. -/
theorem Lasts.and {P Q : Nat → Prop} (hP : Lasts P) (hQ : Lasts Q) : Lasts fun n => P n ∧ Q n := by
  obtain ⟨n₁, h₁⟩ := hP
  obtain ⟨n₂, h₂⟩ := hQ
  exact ⟨max n₁ n₂, fun n hn => ⟨h₁ n (by omega), h₂ n (by omega)⟩⟩

/-- With enough fuel the computation of a job, from the context `s`, ends in the report `r`. -/
def Settles (rules : Rules) (job : Job) (s : σ) (r : Report σ (Outcome Value)) : Prop :=
  ∃ enough, ∀ fuel ≥ enough, ∀ bound ≥ enough, (job.eval rules fuel bound).run s = .ok r

/-- An optional part as a unit and as the beginning of a sequence are the same computation. -/
theorem Parser.maybe_eq_map {β : Type} (f : Option Value → β) (p : Parser σ Value) :
    Parser.maybe f p = Parser.map f (Parser.maybe id p) := by
  simp only [Parser.maybe, Parser.map, bind_assoc]
  congr 1
  funext start
  congr 1
  funext o
  cases o <;> simp [Outcome.map]

/-- The turns of a repetition are what it gathers. -/
theorem Job.run_turns_eq_ok {rules : Rules} {fuel bound : Nat} {a : Grammar} {s t : σ} {x : Except Failure (List Value)}
    {tr : Trace} :
    ((Job.turns a).eval rules fuel bound).run s = .ok ⟨.ofExcept (x.map .list), t, tr⟩ ↔
      (Parser.gather (a.eval rules fuel) bound).run s = .ok ⟨x, t, tr⟩ := by
  constructor
  · intro h
    obtain ⟨y, t₁, tr₁, hg, tr₂, hpure, rfl⟩ := Engine.run_bind_eq_ok.1 h
    obtain ⟨hy, rfl, rfl⟩ := Engine.run_pure_eq_ok.1 hpure
    have hxy : y = x := by
      cases x <;> cases y <;> simp_all [Except.map, Outcome.ofExcept]
    rw [Trace.append_nil, hg, hxy]
  · intro h
    simp only [Job.eval, Engine.run_bind, h, Engine.run_pure, Trace.append_nil]

namespace Settles

variable {rules : Rules} {a g : Grammar} {s t : σ} {r : Report σ (Outcome Value)} {tr : Trace}

/-- A unit settles when it needs one level of fuel more than what lasts. -/
theorem unit {P : Nat → Prop} (hP : Lasts P) (h : ∀ n, P n → (g.eval rules (n + 1)).run s = .ok r) :
    Settles rules (.unit g) s r := by
  obtain ⟨n₁, h₁⟩ := hP
  refine ⟨n₁ + 1, fun fuel hfuel _ _ => ?_⟩
  obtain ⟨n, rfl⟩ : ∃ n, fuel = n + 1 := ⟨fuel - 1, by omega⟩
  exact h n (h₁ n (by omega))

/-- With enough fuel, and any more, the evaluator ends in the report. -/
theorem part (h : Settles rules (.unit a) s r) : Lasts fun n => (a.eval rules n).run s = .ok r := by
  obtain ⟨n, hn⟩ := h
  exact ⟨n, fun m hm => hn m hm m hm⟩

/-- An optional unit settles through its optional value. -/
theorem maybe_part {o : Outcome Value} (h : Settles rules (.unit (.maybe a)) s ⟨o, t, tr⟩) :
    Lasts fun n => ∃ part, part.map .opt = o ∧ (Parser.maybe id (a.eval rules n)).run s = .ok ⟨part, t, tr⟩ := by
  obtain ⟨n, hn⟩ := h
  refine ⟨n, fun m hm => ?_⟩
  have h := hn (m + 1) (by omega) (m + 1) (by omega)
  simp only [Job.eval, Grammar.eval_maybe, Parser.maybe_eq_map Value.opt] at h
  obtain ⟨part, t₁, tr₁, hpart, tr₂, hpure, rfl⟩ := Engine.run_bind_eq_ok.1 h
  obtain ⟨ho, rfl, rfl⟩ := Engine.run_pure_eq_ok.1 hpure
  exact ⟨part, ho, hpart⟩

/-- A repetition settles when the values gathered do. -/
theorem of_gather {x : Except Failure (List Value)}
    (h : ∃ enough, ∀ fuel ≥ enough, ∀ bound ≥ enough,
      (Parser.gather (a.eval rules fuel) (bound + 1)).run s = .ok ⟨x, t, tr⟩) :
    Settles rules (.turns a) s ⟨.ofExcept (x.map .list), t, tr⟩ := by
  obtain ⟨n, hn⟩ := h
  refine ⟨n + 1, fun fuel hfuel bound hbound => ?_⟩
  obtain ⟨m, rfl⟩ : ∃ m, bound = m + 1 := ⟨bound - 1, by omega⟩
  exact Job.run_turns_eq_ok.2 (hn fuel (by omega) m (by omega))

/-- The turns of a repetition settle through the values gathered. -/
theorem gather {x : Except Failure (List Value)} (h : Settles rules (.turns a) s ⟨.ofExcept (x.map .list), t, tr⟩) :
    ∃ enough, ∀ fuel ≥ enough, ∀ bound ≥ enough, (Parser.gather (a.eval rules fuel) bound).run s = .ok ⟨x, t, tr⟩ := by
  obtain ⟨n, hn⟩ := h
  exact ⟨n, fun fuel hfuel bound hbound => Job.run_turns_eq_ok.1 (hn fuel hfuel bound hbound)⟩

/-- The turns of a repetition settle with one amount as fuel and as bound. -/
theorem turns_part {x : Except Failure (List Value)} (h : Settles rules (.turns a) s ⟨.ofExcept (x.map .list), t, tr⟩) :
    Lasts fun n => (Parser.gather (a.eval rules n) n).run s = .ok ⟨x, t, tr⟩ := by
  obtain ⟨n, hn⟩ := h.gather
  exact ⟨n, fun m hm => hn m hm m hm⟩

/-! ### Sequences -/

section

variable {b : Grammar} {onMissing : Action Failure} {next : Value → Grammar} {held : List RuleId} {u w : σ} {o : Outcome Value}
  {v x : Value} {failure : Failure} {tr₁ tr₂ tr₃ : Trace}

/-- A sequence whose head does not match settles as the head does. -/
theorem seq_stop (h : Settles rules (.unit a) s ⟨o, t, tr⟩) (ho : o.isMatch = false) :
    Settles rules (.unit (.seq a b onMissing)) s ⟨o, t, tr⟩ := by
  refine .unit h.part fun n h => ?_
  rcases Outcome.isMatch_eq_false_iff.1 ho with rfl | ⟨failure, rfl⟩
  all_goals simp only [Grammar.eval_seq, Parser.seq, Engine.run_bind, h, Engine.run_pure, Trace.append_nil]

/-- A sequence of two matches settles in the pair of their values. -/
theorem seq_match (h₁ : Settles rules (.unit a) s ⟨.matched v, t, tr₁⟩) (h₂ : Settles rules (.unit b) t ⟨.matched x, u, tr₂⟩) :
    Settles rules (.unit (.seq a b onMissing)) s ⟨.matched (.pair v x), u, tr₁ ++ tr₂⟩ := by
  refine .unit (h₁.part.and h₂.part) fun n h => ?_
  obtain ⟨h₁, h₂⟩ := h
  simp only [Grammar.eval_seq, Parser.seq, Engine.run_bind, h₁, h₂, Engine.run_pure, Trace.append_nil]

/-- A sequence whose tail fails hard settles in that failure. -/
theorem seq_hard (h₁ : Settles rules (.unit a) s ⟨.matched v, t, tr₁⟩) (h₂ : Settles rules (.unit b) t ⟨.hard failure, u, tr₂⟩) :
    Settles rules (.unit (.seq a b onMissing)) s ⟨.hard failure, u, tr₁ ++ tr₂⟩ := by
  refine .unit (h₁.part.and h₂.part) fun n h => ?_
  obtain ⟨h₁, h₂⟩ := h
  simp only [Grammar.eval_seq, Parser.seq, Engine.run_bind, h₁, h₂, Engine.run_pure, Trace.append_nil]

/-- A sequence whose tail fails softly settles in the failure made for it. -/
theorem seq_escalate (h₁ : Settles rules (.unit a) s ⟨.matched v, t, tr₁⟩) (h₂ : Settles rules (.unit b) t ⟨.soft, u, tr₂⟩)
    (hf : onMissing.run.run u = .ok ⟨failure, w, tr₃⟩) :
    Settles rules (.unit (.seq a b onMissing)) s
      ⟨.hard failure, w, tr₁ ++ (tr₂ ++ (tr₃ ++ .event (.tailMissed failure)))⟩ := by
  refine .unit (h₁.part.and h₂.part) fun n h => ?_
  obtain ⟨h₁, h₂⟩ := h
  simp only [Grammar.eval_seq, Parser.seq, Parser.escalate, Engine.run_bind, h₁, h₂, hf, Engine.run_emit, Engine.run_pure,
    Trace.append_nil, Trace.event]

/-- Where the first unit does not match, nothing is selected. -/
theorem bind_stop (h : Settles rules (.unit a) s ⟨o, t, tr⟩) (ho : o.isMatch = false) :
    Settles rules (.unit (.bind a next held)) s ⟨o, t, .opened s ++ tr⟩ := by
  refine .unit h.part fun n h => ?_
  rcases Outcome.isMatch_eq_false_iff.1 ho with rfl | ⟨failure, rfl⟩
  all_goals simp only [Grammar.eval_bind, Parser.bind, Engine.run_bind, Engine.run_backup, h, Engine.run_pure, Trace.append_nil,
    Trace.opened]

/-- Where the selected unit does not fail softly, all of it settles as that unit does. -/
theorem bind_go (h₁ : Settles rules (.unit a) s ⟨.matched v, t, tr₁⟩) (h₂ : Settles rules (.unit (next v)) t ⟨o, u, tr₂⟩)
    (ho : o.isSoft = false) : Settles rules (.unit (.bind a next held)) s ⟨o, u, .opened s ++ (tr₁ ++ tr₂)⟩ := by
  refine .unit (h₁.part.and h₂.part) fun n h => ?_
  obtain ⟨h₁, h₂⟩ := h
  rcases Outcome.isSoft_eq_false_iff.1 ho with ⟨x, rfl⟩ | ⟨failure, rfl⟩
  all_goals simp only [Grammar.eval_bind, Parser.bind, Engine.run_bind, Engine.run_backup, h₁, h₂, Engine.run_pure,
    Trace.append_nil, Trace.opened]

/-- Where the selected unit fails softly, the context is gone back to before the soft failure. -/
theorem bind_back (h₁ : Settles rules (.unit a) s ⟨.matched v, t, tr₁⟩) (h₂ : Settles rules (.unit (next v)) t ⟨.soft, u, tr₂⟩)
    (hr : Context.restore u (Context.backup s) = .ok w) :
    Settles rules (.unit (.bind a next held)) s ⟨.soft, w, .opened s ++ (tr₁ ++ (tr₂ ++ .rewound w))⟩ := by
  refine .unit (h₁.part.and h₂.part) fun n h => ?_
  obtain ⟨h₁, h₂⟩ := h
  simp only [Grammar.eval_bind, Parser.bind, Engine.run_bind, Engine.run_backup, h₁, h₂, Engine.run_restore hr, Engine.run_pure,
    Trace.append_nil, Trace.opened, Trace.rewound]

/-- A hard failure of the optional part settles the sequence. -/
theorem maybeThen_stop (h : Settles rules (.unit (.maybe a)) s ⟨.hard failure, t, tr⟩) :
    Settles rules (.unit (.maybeThen a b onMissing)) s ⟨.hard failure, t, tr⟩ := by
  refine .unit h.maybe_part fun n h => ?_
  obtain ⟨part, hpart, h⟩ := h
  cases part <;> cases hpart
  simp only [Grammar.eval_maybeThen, Parser.maybeThen, Engine.run_bind, h, Engine.run_pure, Trace.append_nil]

/-- An optional part and the unit after it settle in the pair of their values. -/
theorem maybeThen_match (ha : Settles rules (.unit (.maybe a)) s ⟨.matched v, t, tr₁⟩)
    (hb : Settles rules (.unit b) t ⟨.matched x, u, tr₂⟩) :
    Settles rules (.unit (.maybeThen a b onMissing)) s ⟨.matched (.pair v x), u, tr₁ ++ tr₂⟩ := by
  refine .unit (ha.maybe_part.and hb.part) fun n h => ?_
  obtain ⟨⟨part, hpart, h₁⟩, h₂⟩ := h
  cases part <;> cases hpart
  simp only [Grammar.eval_maybeThen, Parser.maybeThen, Engine.run_bind, h₁, h₂, Engine.run_pure, Trace.append_nil]

/-- A hard failure after the optional part settles the sequence. -/
theorem maybeThen_hard (ha : Settles rules (.unit (.maybe a)) s ⟨.matched v, t, tr₁⟩)
    (hb : Settles rules (.unit b) t ⟨.hard failure, u, tr₂⟩) :
    Settles rules (.unit (.maybeThen a b onMissing)) s ⟨.hard failure, u, tr₁ ++ tr₂⟩ := by
  refine .unit (ha.maybe_part.and hb.part) fun n h => ?_
  obtain ⟨⟨part, hpart, h₁⟩, h₂⟩ := h
  cases part <;> cases hpart
  simp only [Grammar.eval_maybeThen, Parser.maybeThen, Engine.run_bind, h₁, h₂, Engine.run_pure, Trace.append_nil]

/-- A soft failure after an absent part stays a soft failure. -/
theorem maybeThen_absent (ha : Settles rules (.unit (.maybe a)) s ⟨.matched (.opt none), t, tr₁⟩)
    (hb : Settles rules (.unit b) t ⟨.soft, u, tr₂⟩) :
    Settles rules (.unit (.maybeThen a b onMissing)) s ⟨.soft, u, tr₁ ++ tr₂⟩ := by
  refine .unit (ha.maybe_part.and hb.part) fun n h => ?_
  obtain ⟨⟨part, hpart, h₁⟩, h₂⟩ := h
  cases part <;> cases hpart
  simp only [Grammar.eval_maybeThen, Parser.maybeThen, Engine.run_bind, h₁, h₂, Engine.run_pure, Trace.append_nil]

/-- A soft failure after a part that was present settles in the failure made for it. -/
theorem maybeThen_escalate (ha : Settles rules (.unit (.maybe a)) s ⟨.matched (.opt (some v)), t, tr₁⟩)
    (hb : Settles rules (.unit b) t ⟨.soft, u, tr₂⟩) (hf : onMissing.run.run u = .ok ⟨failure, w, tr₃⟩) :
    Settles rules (.unit (.maybeThen a b onMissing)) s
      ⟨.hard failure, w, tr₁ ++ (tr₂ ++ (tr₃ ++ .event (.nextMissed failure)))⟩ := by
  refine .unit (ha.maybe_part.and hb.part) fun n h => ?_
  obtain ⟨⟨part, hpart, h₁⟩, h₂⟩ := h
  cases part <;> cases hpart
  simp only [Grammar.eval_maybeThen, Parser.maybeThen, Parser.escalate, Engine.run_bind, h₁, h₂, hf, Engine.run_emit,
    Engine.run_pure, Trace.append_nil, Trace.event]

end

/-! ### Alternations and options -/

section

variable {b : Grammar} {gs : List Grammar} {index : Nat} {u w : σ} {o : Outcome Value} {v : Value} {failure : Failure}
  {tr₁ tr₂ : Trace}

/-- A choice whose first unit does not fail softly settles as that unit does. -/
theorem choose_first (h : Settles rules (.unit a) s ⟨o, t, tr⟩) (ho : o.isSoft = false) :
    Settles rules (.unit (.choose a b)) s ⟨o, t, .opened s ++ tr⟩ := by
  refine .unit h.part fun n h => ?_
  rcases Outcome.isSoft_eq_false_iff.1 ho with ⟨v, rfl⟩ | ⟨failure, rfl⟩
  all_goals simp only [Grammar.eval_choose, Parser.choose, Engine.run_bind, Engine.run_backup, h, Engine.run_pure,
    Trace.append_nil, Trace.opened]

/-- A choice whose first unit fails softly goes back, reports that, and settles as the second unit does. -/
theorem choose_second (h₁ : Settles rules (.unit a) s ⟨.soft, t, tr₁⟩) (hr : Context.restore t (Context.backup s) = .ok u)
    (h₂ : Settles rules (.unit b) u ⟨o, w, tr₂⟩) :
    Settles rules (.unit (.choose a b)) s
      ⟨o, w, .opened s ++ (tr₁ ++ (.event .firstAlternativeMissed ++ (.rewound u ++ tr₂)))⟩ := by
  refine .unit (h₁.part.and h₂.part) fun n h => ?_
  obtain ⟨h₁, h₂⟩ := h
  simp only [Grammar.eval_choose, Parser.choose, Engine.run_bind, Engine.run_backup, h₁, h₂, Engine.run_emit,
    Engine.run_restore hr, Trace.opened, Trace.rewound, Trace.event]

/-- An alternation settles as its candidates do. -/
theorem oneOf (h : Settles rules (.candidates 0 gs) s ⟨o, t, tr⟩) : Settles rules (.unit (.oneOf gs)) s ⟨o, t, tr⟩ := by
  obtain ⟨n, hn⟩ := h
  exact .unit ⟨n, fun m hm => hn m hm m hm⟩ fun _ h => h

/-- A candidate that does not fail softly settles the alternation. -/
theorem candidates_here (h : Settles rules (.unit a) s ⟨o, t, tr⟩) (ho : o.isSoft = false) :
    Settles rules (.candidates index (a :: gs)) s ⟨o, t, .opened s ++ tr⟩ := by
  obtain ⟨n, hn⟩ := h.part
  refine ⟨n, fun fuel hfuel _ _ => ?_⟩
  have h := hn fuel hfuel
  rcases Outcome.isSoft_eq_false_iff.1 ho with ⟨v, rfl⟩ | ⟨failure, rfl⟩
  all_goals simp only [Job.eval, List.map_cons, Parser.oneOfFrom, Engine.run_bind, Engine.run_backup, h, Engine.run_pure,
    Trace.append_nil, Trace.opened]

/-- A candidate that fails softly is reported, and the candidates after it settle the alternation. -/
theorem candidates_next (h₁ : Settles rules (.unit a) s ⟨.soft, t, tr₁⟩) (hr : Context.restore t (Context.backup s) = .ok u)
    (h₂ : Settles rules (.candidates (index + 1) gs) u ⟨o, w, tr₂⟩) :
    Settles rules (.candidates index (a :: gs)) s
      ⟨o, w, .opened s ++ (tr₁ ++ (.event (.alternativeMissed index) ++ (.rewound u ++ tr₂)))⟩ := by
  obtain ⟨n₁, hn₁⟩ := h₁.part
  obtain ⟨n₂, hn₂⟩ := h₂
  refine ⟨max n₁ n₂, fun fuel hfuel bound hbound => ?_⟩
  have h₁ := hn₁ fuel (by omega)
  have h₂ := hn₂ fuel (by omega) bound (by omega)
  simp only [Job.eval] at h₂
  simp only [Job.eval, List.map_cons, Parser.oneOfFrom, Engine.run_bind, Engine.run_backup, h₁, h₂, Engine.run_emit,
    Engine.run_restore hr, Trace.opened, Trace.rewound, Trace.event]

/-- A recovering unit settles in the match of its primary unit. -/
theorem rescue_primary (h : Settles rules (.unit a) s ⟨.matched v, t, tr⟩) :
    Settles rules (.unit (.rescue a b)) s ⟨.matched v, t, .opened s ++ tr⟩ := by
  refine .unit h.part fun n h => ?_
  simp only [Grammar.eval_rescue, Parser.rescue, Engine.run_bind, Engine.run_backup, h, Engine.run_pure, Trace.append_nil,
    Trace.opened]

/-- After a soft failure of the primary unit a recovering unit settles as its fallback does. -/
theorem rescue_missed (h₁ : Settles rules (.unit a) s ⟨.soft, t, tr₁⟩) (hr : Context.restore t (Context.backup s) = .ok u)
    (h₂ : Settles rules (.unit b) u ⟨o, w, tr₂⟩) :
    Settles rules (.unit (.rescue a b)) s ⟨o, w, .opened s ++ (tr₁ ++ (.event .primaryMissed ++ (.rewound u ++ tr₂)))⟩ := by
  refine .unit (h₁.part.and h₂.part) fun n h => ?_
  obtain ⟨h₁, h₂⟩ := h
  simp only [Grammar.eval_rescue, Parser.rescue, Engine.run_bind, Engine.run_backup, h₁, h₂, Engine.run_emit,
    Engine.run_restore hr, Trace.opened, Trace.rewound, Trace.event]

/-- After a hard failure of the primary unit a recovering unit settles as its fallback does. -/
theorem rescue_recover (h₁ : Settles rules (.unit a) s ⟨.hard failure, t, tr₁⟩)
    (hr : Context.restore t (Context.backup s) = .ok u) (h₂ : Settles rules (.unit b) u ⟨o, w, tr₂⟩) :
    Settles rules (.unit (.rescue a b)) s
      ⟨o, w, .opened s ++ (tr₁ ++ (.event (.recovering failure) ++ (.rewound u ++ tr₂)))⟩ := by
  refine .unit (h₁.part.and h₂.part) fun n h => ?_
  obtain ⟨h₁, h₂⟩ := h
  simp only [Grammar.eval_rescue, Parser.rescue, Engine.run_bind, Engine.run_backup, h₁, h₂, Engine.run_emit,
    Engine.run_restore hr, Trace.opened, Trace.rewound, Trace.event]

/-- An optional unit settles in the value of its part. -/
theorem maybe_present (h : Settles rules (.unit a) s ⟨.matched v, t, tr⟩) :
    Settles rules (.unit (.maybe a)) s ⟨.matched (.opt (some v)), t, .opened s ++ tr⟩ := by
  refine .unit h.part fun n h => ?_
  simp only [Grammar.eval_maybe, Parser.maybe, Engine.run_bind, Engine.run_backup, h, Engine.run_pure, Trace.append_nil,
    Trace.opened]

/-- An optional unit does not hide a hard failure. -/
theorem maybe_hard (h : Settles rules (.unit a) s ⟨.hard failure, t, tr⟩) :
    Settles rules (.unit (.maybe a)) s ⟨.hard failure, t, .opened s ++ tr⟩ := by
  refine .unit h.part fun n h => ?_
  simp only [Grammar.eval_maybe, Parser.maybe, Engine.run_bind, Engine.run_backup, h, Engine.run_pure, Trace.append_nil,
    Trace.opened]

/-- Where its part fails softly, an optional unit goes back and settles in no value. -/
theorem maybe_absent (h : Settles rules (.unit a) s ⟨.soft, t, tr⟩) (hr : Context.restore t (Context.backup s) = .ok u) :
    Settles rules (.unit (.maybe a)) s ⟨.matched (.opt none), u, .opened s ++ (tr ++ .rewound u)⟩ := by
  refine .unit h.part fun n h => ?_
  simp only [Grammar.eval_maybe, Parser.maybe, Engine.run_bind, Engine.run_backup, h, Engine.run_restore hr, Engine.run_pure,
    Trace.append_nil, Trace.opened, Trace.rewound]

end

/-! ### Repetitions -/

section

variable {u : σ} {v : Value} {vs : List Value} {failure : Failure} {tr₁ tr₂ : Trace}

/-- The turns of a repetition end with a soft failure, which is given back. -/
theorem turns_stop (h : Settles rules (.unit a) s ⟨.soft, t, tr⟩) (hr : Context.restore t (Context.backup s) = .ok u) :
    Settles rules (.turns a) s ⟨.matched (.list []), u, .opened s ++ (tr ++ .rewound u)⟩ := by
  obtain ⟨n, hn⟩ := h.part
  refine .of_gather (x := .ok []) ⟨n, fun fuel hfuel bound _ => ?_⟩
  simp only [Parser.gather, Engine.run_bind, Engine.run_backup, hn fuel hfuel, Engine.run_restore hr, Engine.run_pure,
    Trace.append_nil, Trace.opened, Trace.rewound]

/-- The turns of a repetition end in a hard failure of the unit. -/
theorem turns_hard (h : Settles rules (.unit a) s ⟨.hard failure, t, tr⟩) :
    Settles rules (.turns a) s ⟨.hard failure, t, .opened s ++ tr⟩ := by
  obtain ⟨n, hn⟩ := h.part
  refine .of_gather (x := .error failure) ⟨n, fun fuel hfuel bound _ => ?_⟩
  simp only [Parser.gather, Engine.run_bind, Engine.run_backup, hn fuel hfuel, Engine.run_pure, Trace.append_nil,
    Trace.opened]

/-- One turn more, whatever the turns after it come to. -/
theorem turns_after {x : Except Failure (List Value)} (h₁ : Settles rules (.unit a) s ⟨.matched v, t, tr₁⟩)
    (h₂ : Settles rules (.turns a) t ⟨.ofExcept (x.map .list), u, tr₂⟩) :
    Settles rules (.turns a) s ⟨.ofExcept ((x.map (v :: ·)).map .list), u, .opened s ++ (tr₁ ++ tr₂)⟩ := by
  obtain ⟨n₁, hn₁⟩ := h₁.part
  obtain ⟨n₂, hn₂⟩ := h₂.gather
  refine .of_gather ⟨max n₁ n₂, fun fuel hfuel bound hbound => ?_⟩
  have h₁ := hn₁ fuel (by omega)
  have h₂ := hn₂ fuel (by omega) bound (by omega)
  simp only [Parser.gather, Engine.run_bind, Engine.run_backup, h₁, h₂, Engine.run_pure, Trace.append_nil, Trace.opened]

/-- Without a turn that matched, at least one match is a soft failure. -/
theorem oneOrMany_none (h : Settles rules (.turns a) s ⟨.matched (.list []), t, tr⟩) :
    Settles rules (.unit (.oneOrMany a)) s ⟨.soft, t, tr ++ .event (.repetitionStopped 0)⟩ := by
  refine .unit (turns_part (x := .ok []) h) fun n h => ?_
  simp only [Grammar.eval_oneOrMany, Parser.oneOrMany, Parser.collect, Engine.run_bind, h, Engine.run_emit, Engine.run_pure,
    Trace.append_nil, List.length_nil, Trace.event]

/-- With a turn that matched, at least one match settles in the list of values, and reports their number. -/
theorem oneOrMany_some (h : Settles rules (.turns a) s ⟨.matched (.list (v :: vs)), t, tr⟩) :
    Settles rules (.unit (.oneOrMany a)) s
      ⟨.matched (.list (v :: vs)), t, tr ++ .event (.repetitionStopped (vs.length + 1))⟩ := by
  refine .unit (turns_part (x := .ok (v :: vs)) h) fun n h => ?_
  simp only [Grammar.eval_oneOrMany, Parser.oneOrMany, Parser.collect, Engine.run_bind, h, Engine.run_emit, Engine.run_pure,
    Trace.append_nil, List.length_cons, Trace.event]

/-- A hard failure of a turn settles the repetition, without a report. -/
theorem oneOrMany_hard (h : Settles rules (.turns a) s ⟨.hard failure, t, tr⟩) :
    Settles rules (.unit (.oneOrMany a)) s ⟨.hard failure, t, tr⟩ := by
  refine .unit (turns_part (x := .error failure) h) fun n h => ?_
  simp only [Grammar.eval_oneOrMany, Parser.oneOrMany, Parser.collect, Engine.run_bind, h, Engine.run_pure, Trace.append_nil]

/-- Any number of matches settles in the list of their values. -/
theorem zeroOrMany_some (h : Settles rules (.turns a) s ⟨.matched (.list vs), t, tr⟩) :
    Settles rules (.unit (.zeroOrMany a)) s ⟨.matched (.list vs), t, tr ++ .event (.repetitionStopped vs.length)⟩ := by
  refine .unit (turns_part (x := .ok vs) h) fun n h => ?_
  simp only [Grammar.eval_zeroOrMany, Parser.zeroOrMany, Parser.collect, Engine.run_bind, h, Engine.run_emit, Engine.run_pure,
    Trace.append_nil, Trace.event]

/-- A hard failure of a turn settles a repetition of any number of matches. -/
theorem zeroOrMany_hard (h : Settles rules (.turns a) s ⟨.hard failure, t, tr⟩) :
    Settles rules (.unit (.zeroOrMany a)) s ⟨.hard failure, t, tr⟩ := by
  refine .unit (turns_part (x := .error failure) h) fun n h => ?_
  simp only [Grammar.eval_zeroOrMany, Parser.zeroOrMany, Parser.collect, Engine.run_bind, h, Engine.run_pure, Trace.append_nil]

end

/-! ### Conversions and links -/

section

variable {u : σ} {o : Outcome Value} {v : Value} {tr₁ tr₂ : Trace}

/-- A conversion settles in the converted outcome. -/
theorem map {f : Value → Value} (h : Settles rules (.unit a) s ⟨o, t, tr⟩) : Settles rules (.unit (.map f a)) s ⟨o.map f, t, tr⟩ := by
  refine .unit h.part fun n h => ?_
  simp only [Grammar.eval_map, Parser.map, Engine.run_bind, h, Engine.run_pure, Trace.append_nil]

section

variable {f : Value → Action (Except Failure Value)}

/-- Without a match there is nothing to transform. -/
theorem transform_stop (h : Settles rules (.unit a) s ⟨o, t, tr⟩) (ho : o.isMatch = false) :
    Settles rules (.unit (.transform f a)) s ⟨o, t, tr⟩ := by
  refine .unit h.part fun n h => ?_
  rcases Outcome.isMatch_eq_false_iff.1 ho with rfl | ⟨failure, rfl⟩
  all_goals simp only [Grammar.eval_transform, Parser.transform, Engine.run_bind, h, Engine.run_pure, Trace.append_nil]

/-- A match is converted or refused by an action. -/
theorem transform {x : Except Failure Value} (h : Settles rules (.unit a) s ⟨.matched v, t, tr₁⟩)
    (hf : (f v).run.run t = .ok ⟨x, u, tr₂⟩) : Settles rules (.unit (.transform f a)) s ⟨.ofExcept x, u, tr₁ ++ tr₂⟩ := by
  refine .unit h.part fun n h => ?_
  simp only [Grammar.eval_transform, Parser.transform, Engine.run_bind, h, hf, Engine.run_pure, Trace.append_nil]

end

/-- A wrapper settles as what it wraps. -/
theorem wrap {how : Wrapper} (h : Settles rules (.unit a) s r) : Settles rules (.unit (.wrap how a)) s r :=
  .unit h.part fun _ h => h

/-- A link settles as the body of its rule does. -/
theorem link {l : Link} {body : Grammar} (hbody : rules l.rule = some body) (h : Settles rules (.unit body) s r) :
    Settles rules (.unit (.link l)) s r := by
  refine .unit h.part fun n h => ?_
  rw [Grammar.eval_link hbody, h]

/-- Without a body it settles in a hard failure, where it stands. -/
theorem link_unbound {l : Link} (hnone : rules l.rule = none) :
    Settles rules (.unit (.link l)) s ⟨.hard .unboundRecursion, s, .nil⟩ := by
  refine .unit ⟨0, fun _ _ => trivial⟩ fun n _ => ?_
  rw [Grammar.eval_link_unbound hnone]
  rfl

end

end Settles

/-- A run is what the computation of the job does with enough fuel. -/
theorem Runs.settles {rules : Rules} {job : Job} {s t : σ} {o : Outcome Value} {tr : Trace} (h : Runs rules job s o t tr) :
    Settles rules job s ⟨o, t, tr⟩ := by
  induction h with
  | pop h => exact .unit ⟨0, fun _ _ => h⟩ fun _ h => h
  | apply h => exact .unit ⟨0, fun _ _ => h⟩ fun _ h => h
  | seq_stop _ ho ih => exact ih.seq_stop ho
  | seq_match _ _ ih₁ ih₂ => exact ih₁.seq_match ih₂
  | seq_hard _ _ ih₁ ih₂ => exact ih₁.seq_hard ih₂
  | seq_escalate _ _ hf ih₁ ih₂ => exact ih₁.seq_escalate ih₂ hf
  | bind_stop _ ho ih => exact ih.bind_stop ho
  | bind_go _ _ ho ih₁ ih₂ => exact ih₁.bind_go ih₂ ho
  | bind_back _ _ hr ih₁ ih₂ => exact ih₁.bind_back ih₂ hr
  | choose_first _ ho ih => exact ih.choose_first ho
  | choose_second _ hr _ ih₁ ih₂ => exact ih₁.choose_second hr ih₂
  | oneOf _ ih => exact ih.oneOf
  | candidates_none => exact ⟨0, fun _ _ _ _ => rfl⟩
  | candidates_here _ ho ih => exact ih.candidates_here ho
  | candidates_next _ hr _ ih₁ ih₂ => exact ih₁.candidates_next hr ih₂
  | rescue_primary _ ih => exact ih.rescue_primary
  | rescue_missed _ hr _ ih₁ ih₂ => exact ih₁.rescue_missed hr ih₂
  | rescue_recover _ hr _ ih₁ ih₂ => exact ih₁.rescue_recover hr ih₂
  | maybe_present _ ih => exact ih.maybe_present
  | maybe_hard _ ih => exact ih.maybe_hard
  | maybe_absent _ hr ih => exact ih.maybe_absent hr
  | maybeThen_stop _ ih => exact ih.maybeThen_stop
  | maybeThen_match _ _ ih₁ ih₂ => exact ih₁.maybeThen_match ih₂
  | maybeThen_hard _ _ ih₁ ih₂ => exact ih₁.maybeThen_hard ih₂
  | maybeThen_absent _ _ ih₁ ih₂ => exact ih₁.maybeThen_absent ih₂
  | maybeThen_escalate _ _ hf ih₁ ih₂ => exact ih₁.maybeThen_escalate ih₂ hf
  | turns_stop _ hr ih => exact ih.turns_stop hr
  | turns_hard _ ih => exact ih.turns_hard
  | @turns_more _ _ _ _ _ vs _ _ _ _ ih₁ ih₂ => exact ih₁.turns_after (x := .ok vs) ih₂
  | @turns_more_hard _ _ _ _ _ failure _ _ _ _ ih₁ ih₂ => exact ih₁.turns_after (x := .error failure) ih₂
  | oneOrMany_none _ ih => exact ih.oneOrMany_none
  | oneOrMany_some _ ih => exact ih.oneOrMany_some
  | oneOrMany_hard _ ih => exact ih.oneOrMany_hard
  | zeroOrMany_some _ ih => exact ih.zeroOrMany_some
  | zeroOrMany_hard _ ih => exact ih.zeroOrMany_hard
  | map_match _ ih => exact ih.map
  | map_stop _ ho ih =>
    rcases Outcome.isMatch_eq_false_iff.1 ho with rfl | ⟨failure, rfl⟩
    · exact ih.map
    · exact ih.map
  | transform_stop _ ho ih => exact ih.transform_stop ho
  | transform_match _ hf ih => exact ih.transform hf
  | transform_hard _ hf ih => exact ih.transform hf
  | wrap _ ih => exact ih.wrap
  | link hbody _ ih => exact .link hbody ih
  | link_unbound hnone => exact .link_unbound hnone

/-- A unit runs as the rules say exactly when the evaluator does so with some amount of fuel. -/
theorem runs_iff_eval {rules : Rules} {g : Grammar} {s t : σ} {o : Outcome Value} {tr : Trace} :
    Runs rules (.unit g) s o t tr ↔ ∃ fuel, (g.eval rules fuel).run s = .ok ⟨o, t, tr⟩ := by
  constructor
  · intro h
    obtain ⟨n, hn⟩ := h.settles.part
    exact ⟨n, hn n (Nat.le_refl n)⟩
  · rintro ⟨fuel, h⟩
    exact eval_follows rules fuel g h

/-- The parse of a unit from the context `s` returns the outcome `o` and leaves the context `t`. -/
def Grammar.Yields (rules : Rules) (g : Grammar) (s : σ) (o : Outcome Value) (t : σ) : Prop :=
  ∃ fuel tr, (g.eval rules fuel).run s = .ok ⟨o, t, tr⟩

/-- What a parse returns is what some run of the unit ends in. -/
theorem Grammar.yields_iff_runs {rules : Rules} {g : Grammar} {s t : σ} {o : Outcome Value} :
    g.Yields rules s o t ↔ ∃ tr, Runs rules (.unit g) s o t tr := by
  simp only [Grammar.Yields, runs_iff_eval]
  exact exists_comm

/-- What a parse returns, read off a run with a given amount of fuel. -/
theorem Grammar.yields_of_run {rules : Rules} {g : Grammar} {s t : σ} {o : Outcome Value} (fuel : Nat)
    (h : ((g.eval rules fuel).run s).toOption.map (fun r => (r.value, r.context)) = some (o, t)) : g.Yields rules s o t := by
  obtain ⟨_, _, tr, hrun, hread⟩ := Engine.exists_report h
  cases hread
  exact ⟨fuel, tr, hrun⟩

/-- A job has at most one run from a context. -/
theorem Runs.unique {rules : Rules} {job : Job} {s t t' : σ} {o o' : Outcome Value} {tr tr' : Trace}
    (h : Runs rules job s o t tr) (h' : Runs rules job s o' t' tr') : o = o' ∧ t = t' ∧ tr = tr' := by
  obtain ⟨n, hn⟩ := h.settles
  obtain ⟨n', hn'⟩ := h'.settles
  have e := hn (max n n') (by omega) (max n n') (by omega)
  rw [hn' (max n n') (by omega) (max n n') (by omega)] at e
  cases e
  exact ⟨rfl, rfl, rfl⟩

/-- What is gone back to after a job is determined, as is what the job did. -/
theorem Runs.unique_return {rules : Rules} {job : Job} {s t t' u u' : σ} {o o' : Outcome Value} {tr tr' : Trace}
    (h : Runs rules job s o t tr) (h' : Runs rules job s o' t' tr') (hr : Context.restore t (Context.backup s) = .ok u)
    (hr' : Context.restore t' (Context.backup s) = .ok u') : tr = tr' ∧ u = u' := by
  obtain ⟨-, rfl, htr⟩ := h.unique h'
  exact ⟨htr, Except.ok.inj (hr.symm.trans hr')⟩

/-- A run of a unit is a parse of it. -/
theorem Runs.yields {rules : Rules} {g : Grammar} {s t : σ} {o : Outcome Value} {tr : Trace}
    (h : Runs rules (.unit g) s o t tr) : g.Yields rules s o t :=
  Grammar.yields_iff_runs.2 ⟨tr, h⟩

/-- The parse of a unit from a context has at most one end. -/
theorem Grammar.Yields.unique {rules : Rules} {g : Grammar} {s t t' : σ} {o o' : Outcome Value}
    (h : g.Yields rules s o t) (h' : g.Yields rules s o' t') : o = o' ∧ t = t' := by
  obtain ⟨_, hrun⟩ := yields_iff_runs.1 h
  obtain ⟨_, hrun'⟩ := yields_iff_runs.1 h'
  obtain ⟨ho, ht, -⟩ := hrun.unique hrun'
  exact ⟨ho, ht⟩

end

end Backtrack
