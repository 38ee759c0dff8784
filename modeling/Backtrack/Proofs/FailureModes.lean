import Backtrack.Proofs.Invocations

/-!
# Failure modes

Whether a unit may fail softly and whether it may fail hard can be read off its form, part by part: a committed sequence turns the
soft failures of its tail into hard ones, an alternation fails only where its last part does, a recovering unit fails only as its
fallback does. For the rules the two flags are assumed, and the assumption has to cover the bodies.
-/

namespace Backtrack

/-- Whether a unit may fail softly, and whether it may fail hard. -/
structure Modes where
  soft : Prop
  hard : Prop

namespace Grammar

mutual

/-- The failure modes of a unit on contexts of type `σ`, given those of the rules. -/
def modes (σ : Type) [Context σ] (assigned : RuleId → Modes) : Grammar → Modes
  | .pop _ => ⟨True, False⟩
  | .apply f =>
    ⟨∃ (s t : σ) (tr : Trace), f.run.run s = .ok ⟨.soft, t, tr⟩,
      ∃ (s t : σ) (tr : Trace) (failure : Failure), f.run.run s = .ok ⟨.hard failure, t, tr⟩⟩
  | .seq a b _ =>
    ⟨(modes σ assigned a).soft, (modes σ assigned a).hard ∨ (modes σ assigned b).hard ∨ (modes σ assigned b).soft⟩
  | .bind a next _ =>
    ⟨(modes σ assigned a).soft ∨ ∃ v, (modes σ assigned (next v)).soft,
      (modes σ assigned a).hard ∨ ∃ v, (modes σ assigned (next v)).hard⟩
  | .choose a b =>
    ⟨(modes σ assigned a).soft ∧ (modes σ assigned b).soft,
      (modes σ assigned a).hard ∨ (modes σ assigned a).soft ∧ (modes σ assigned b).hard⟩
  | .oneOf gs => modesOfAll σ assigned gs
  | .rescue a b =>
    ⟨((modes σ assigned a).soft ∨ (modes σ assigned a).hard) ∧ (modes σ assigned b).soft,
      ((modes σ assigned a).soft ∨ (modes σ assigned a).hard) ∧ (modes σ assigned b).hard⟩
  | .maybe a | .zeroOrMany a => ⟨False, (modes σ assigned a).hard⟩
  | .maybeThen a b _ =>
    ⟨(modes σ assigned a).soft ∧ (modes σ assigned b).soft,
      (modes σ assigned a).hard ∨ (modes σ assigned b).hard ∨ (modes σ assigned b).soft⟩
  | .oneOrMany a | .map _ a | .wrap _ a => modes σ assigned a
  | .transform f a =>
    ⟨(modes σ assigned a).soft, (modes σ assigned a).hard ∨
      ∃ (v : Value) (s t : σ) (tr : Trace) (failure : Failure), (f v).run.run s = .ok ⟨.error failure, t, tr⟩⟩
  | .link l => assigned l.rule

/-- The failure modes of an alternation: it may fail softly if all candidates may, and hard if some candidate may. -/
def modesOfAll (σ : Type) [Context σ] (assigned : RuleId → Modes) : List Grammar → Modes
  | [] => ⟨True, False⟩
  | g :: gs =>
    ⟨(modes σ assigned g).soft ∧ (modesOfAll σ assigned gs).soft, (modes σ assigned g).hard ∨ (modesOfAll σ assigned gs).hard⟩

end

end Grammar

/-- The modes assumed for the rule cover those of its body; without a body, they cover hard failure. -/
def Modes.Covers (σ : Type) [Context σ] (rules : Rules) (assigned : RuleId → Modes) (r : RuleId) : Prop :=
  match rules r with
  | some body =>
    ((body.modes σ assigned).soft → (assigned r).soft) ∧ ((body.modes σ assigned).hard → (assigned r).hard)
  | none => (assigned r).hard

namespace Job

variable (σ : Type) [Context σ] (assigned : RuleId → Modes)

/-- The outcomes that the failure modes of the units of a job allow. An optional part is absent, and a repetition ends, only where
the unit may fail softly. -/
def Allows : Job → Outcome Value → Prop
  | .unit g, .soft => (g.modes σ assigned).soft
  | .unit g, .hard _ => (g.modes σ assigned).hard
  | .unit (.maybe a), .matched v => v = .opt none → (a.modes σ assigned).soft
  | .unit _, .matched _ => True
  | .candidates _ gs, .soft => (Grammar.modesOfAll σ assigned gs).soft
  | .candidates _ gs, .hard _ => (Grammar.modesOfAll σ assigned gs).hard
  | .candidates _ _, .matched _ => True
  | .turns a, .matched _ => (a.modes σ assigned).soft
  | .turns _, .soft => False
  | .turns a, .hard _ => (a.modes σ assigned).hard

end Job

section

variable {σ : Type} [Context σ] {rules : Rules} {assigned : RuleId → Modes} {job job' : Job} {s s' t : σ} {n : Nat}
  {before tr : Trace} {o : Outcome Value}

/-- The modes assumed for the rule of a link cover those of its body. -/
def Job.Covered (rules : Rules) (assigned : RuleId → Modes) (job : Job) (_ : σ) : Prop :=
  ∀ l, job = .unit (.link l) → Modes.Covers σ rules assigned l.rule

namespace Job.Allows

variable {a b g : Grammar} {next : Value → Grammar} {held : List RuleId} {gs : List Grammar} {v : Value} {index : Nat}
  {onMissing : Action Failure}

/-- Whatever fails at the head of a sequence fails the sequence. -/
theorem seq_stop (ha : (unit a).Allows σ assigned o) (ho : o.isMatch = false) :
    (unit (.seq a b onMissing)).Allows σ assigned o := by
  rcases Outcome.isMatch_eq_false_iff.1 ho with rfl | ⟨failure, rfl⟩
  · exact ha
  · exact .inl ha

/-- Whatever fails before a value selects a unit fails the selection. -/
theorem bind_stop (ha : (unit a).Allows σ assigned o) (ho : o.isMatch = false) :
    (unit (.bind a next held)).Allows σ assigned o := by
  rcases Outcome.isMatch_eq_false_iff.1 ho with rfl | ⟨failure, rfl⟩
  · exact .inl ha
  · exact .inl ha

/-- A selection ends as the selected unit does. -/
theorem bind_next (hnext : (unit (next v)).Allows σ assigned o) : (unit (.bind a next held)).Allows σ assigned o := by
  cases o with
  | matched => trivial
  | soft | hard => exact .inr ⟨v, hnext⟩

/-- A choice whose first unit does not fail softly ends as that unit does. -/
theorem choose_first (ha : (unit a).Allows σ assigned o) (ho : o.isSoft = false) :
    (unit (.choose a b)).Allows σ assigned o := by
  rcases Outcome.isSoft_eq_false_iff.1 ho with ⟨w, rfl⟩ | ⟨failure, rfl⟩
  · trivial
  · exact .inl ha

/-- A choice whose first unit fails softly ends as the second one does. -/
theorem choose_second (ha : (unit a).Allows σ assigned .soft) (hb : (unit b).Allows σ assigned o) :
    (unit (.choose a b)).Allows σ assigned o := by
  cases o with
  | matched => trivial
  | soft => exact ⟨ha, hb⟩
  | hard => exact .inr ⟨ha, hb⟩

/-- An alternation ends as its candidates do. -/
theorem oneOf (hgs : (candidates index gs).Allows σ assigned o) : (unit (.oneOf gs)).Allows σ assigned o := by
  cases o with
  | matched => trivial
  | soft | hard => exact hgs

/-- A candidate that does not fail softly ends the alternation. -/
theorem candidates_here (hg : (unit g).Allows σ assigned o) (ho : o.isSoft = false) :
    (candidates index (g :: gs)).Allows σ assigned o := by
  rcases Outcome.isSoft_eq_false_iff.1 ho with ⟨w, rfl⟩ | ⟨failure, rfl⟩
  · trivial
  · exact .inl hg

/-- A candidate that fails softly leaves it to the next ones. -/
theorem candidates_next (hg : (unit g).Allows σ assigned .soft) (hgs : (candidates (index + 1) gs).Allows σ assigned o) :
    (candidates index (g :: gs)).Allows σ assigned o := by
  cases o with
  | matched => trivial
  | soft => exact ⟨hg, hgs⟩
  | hard => exact .inr hgs

/-- Where the primary unit may fail, in whatever way, a recovering unit ends as its fallback does. -/
theorem rescue_fallback (ha : (a.modes σ assigned).soft ∨ (a.modes σ assigned).hard) (hb : (unit b).Allows σ assigned o) :
    (unit (.rescue a b)).Allows σ assigned o := by
  cases o with
  | matched => trivial
  | soft | hard => exact ⟨ha, hb⟩

/-- Whatever fails is not converted. -/
theorem map_stop {f : Value → Value} (ha : (unit a).Allows σ assigned o) (ho : o.isMatch = false) :
    (unit (.map f a)).Allows σ assigned o := by
  rcases Outcome.isMatch_eq_false_iff.1 ho with rfl | ⟨failure, rfl⟩
  · exact ha
  · exact ha

/-- Whatever fails is not transformed. -/
theorem transform_stop {f : Value → Action (Except Failure Value)} (ha : (unit a).Allows σ assigned o)
    (ho : o.isMatch = false) : (unit (.transform f a)).Allows σ assigned o := by
  rcases Outcome.isMatch_eq_false_iff.1 ho with rfl | ⟨failure, rfl⟩
  · exact ha
  · exact .inl ha

/-- A wrapper ends as what it wraps. -/
theorem wrap {how : Wrapper} (ha : (unit a).Allows σ assigned o) : (unit (.wrap how a)).Allows σ assigned o := by
  cases o with
  | matched => trivial
  | soft | hard => exact ha

/-- A link ends as the body of its rule does, which the modes of the rule cover. -/
theorem link {l : Link} (hcovers : Modes.Covers σ rules assigned l.rule) (hbody : rules l.rule = some g)
    (hg : (unit g).Allows σ assigned o) : (unit (.link l)).Allows σ assigned o := by
  simp only [Modes.Covers, hbody] at hcovers
  cases o with
  | matched => trivial
  | soft => exact hcovers.1 hg
  | hard => exact hcovers.2 hg

/-- Without a body the modes of the rule cover the hard failure. -/
theorem link_unbound {l : Link} {failure : Failure} (hcovers : Modes.Covers σ rules assigned l.rule)
    (hnone : rules l.rule = none) : (unit (.link l)).Allows σ assigned (.hard failure) := by
  simp only [Modes.Covers, hnone] at hcovers
  exact hcovers

end Job.Allows

/-- Every run ends in an outcome that the failure modes allow. -/
theorem Runs.allowed [LawfulContext σ] (h : Runs rules job s o t tr)
    (hrules : Throughout rules (Job.Covered rules assigned) job s) : job.Allows σ assigned o := by
  induction h with
  | pop h =>
    rcases Parser.run_pop_cases h with ⟨_, _, _, _, rfl, _⟩ | ⟨_, rfl, _⟩
    · trivial
    · trivial
  | @apply f s t o tr h =>
    cases o with
    | matched => trivial
    | soft => exact ⟨s, t, tr, h⟩
    | hard failure => exact ⟨s, t, tr, failure, h⟩
  | seq_stop _ ho ih => exact (ih (hrules.of_invokes .seq_head)).seq_stop ho
  | seq_match => trivial
  | seq_hard h₁ _ _ ih => exact .inr (.inl (ih (hrules.of_invokes (.seq_tail h₁))))
  | seq_escalate h₁ _ _ _ ih => exact .inr (.inr (ih (hrules.of_invokes (.seq_tail h₁))))
  | bind_stop _ ho ih => exact (ih (hrules.of_invokes .bind_base)).bind_stop ho
  | bind_go h₁ _ _ _ ih | bind_back h₁ _ _ _ ih => exact (ih (hrules.of_invokes (.bind_next h₁))).bind_next
  | choose_first _ ho ih => exact (ih (hrules.of_invokes .choose_first)).choose_first ho
  | choose_second h₁ hr _ ih₁ ih₂ =>
    exact (ih₁ (hrules.of_invokes .choose_first)).choose_second (ih₂ (hrules.of_invokes (.choose_second h₁ hr)))
  | oneOf _ ih => exact (ih (hrules.of_invokes .oneOf)).oneOf
  | candidates_none => trivial
  | candidates_here _ ho ih => exact (ih (hrules.of_invokes .candidates_here)).candidates_here ho
  | candidates_next h₁ hr _ ih₁ ih₂ =>
    exact (ih₁ (hrules.of_invokes .candidates_here)).candidates_next (ih₂ (hrules.of_invokes (.candidates_next h₁ hr)))
  | rescue_primary => trivial
  | rescue_missed h₁ hr _ ih₁ ih₂ =>
    have ha := ih₁ (hrules.of_invokes .rescue_primary)
    exact .rescue_fallback (.inl ha) (ih₂ (hrules.of_invokes (.rescue_missed h₁ hr)))
  | rescue_recover h₁ hr _ ih₁ ih₂ =>
    have ha := ih₁ (hrules.of_invokes .rescue_primary)
    exact .rescue_fallback (.inr ha) (ih₂ (hrules.of_invokes (.rescue_recover h₁ hr)))
  | maybe_present => nofun
  | maybe_hard _ ih => exact ih (hrules.of_invokes .maybe)
  | maybe_absent _ _ ih => exact fun _ => ih (hrules.of_invokes .maybe)
  | maybeThen_stop _ ih => exact .inl (ih (hrules.of_invokes .maybeThen_before))
  | maybeThen_match => trivial
  | maybeThen_hard h₁ _ _ ih => exact .inr (.inl (ih (hrules.of_invokes (.maybeThen_next h₁))))
  | maybeThen_absent h₁ _ ih₁ ih₂ =>
    exact ⟨ih₁ (hrules.of_invokes .maybeThen_before) rfl, ih₂ (hrules.of_invokes (.maybeThen_next h₁))⟩
  | maybeThen_escalate h₁ _ _ _ ih => exact .inr (.inr (ih (hrules.of_invokes (.maybeThen_next h₁))))
  | turns_stop _ _ ih => exact ih (hrules.of_invokes .turns_base)
  | turns_hard _ ih => exact ih (hrules.of_invokes .turns_base)
  | turns_more h₁ _ _ ih | turns_more_hard h₁ _ _ ih => exact ih (hrules.of_invokes (.turns_more h₁))
  | oneOrMany_none _ ih | oneOrMany_hard _ ih => exact ih (hrules.of_invokes .oneOrMany)
  | oneOrMany_some => trivial
  | zeroOrMany_some => trivial
  | zeroOrMany_hard _ ih => exact ih (hrules.of_invokes .zeroOrMany)
  | map_match => trivial
  | map_stop _ ho ih => exact (ih (hrules.of_invokes .map)).map_stop ho
  | transform_stop _ ho ih => exact (ih (hrules.of_invokes .transform)).transform_stop ho
  | transform_match => trivial
  | transform_hard _ hf => exact .inr ⟨_, _, _, _, _, hf⟩
  | wrap _ ih => exact (ih (hrules.of_invokes .wrap)).wrap
  | link hbody _ ih => exact .link (hrules.here _ rfl) hbody (ih (hrules.of_invokes (.link hbody)))
  | link_unbound hnone => exact .link_unbound (hrules.here _ rfl) hnone

end

/-! ## Grammars that do not fail hard -/

namespace Grammar

/-- A unit that makes no hard failure of its own: a leaf or a transformer does not fail hard, the part that a commitment waits for
does not fail softly, and a rule has a definition, which fails softly only if that is assumed. -/
def Mild (σ : Type) [Context σ] (rules : Rules) (assigned : RuleId → Modes) : Grammar → Prop
  | .apply f => ∀ (s t : σ) (tr : Trace) (failure : Failure), f.run.run s ≠ .ok ⟨.hard failure, t, tr⟩
  | .seq _ b _ | .maybeThen _ b _ => ¬ (b.modes σ assigned).soft
  | .transform f _ =>
    ∀ (v : Value) (s t : σ) (tr : Trace) (failure : Failure), (f v).run.run s ≠ .ok ⟨.error failure, t, tr⟩
  | .link l => ∃ body, rules l.rule = some body ∧ ((body.modes σ assigned).soft → (assigned l.rule).soft)
  | _ => True

/-- A unit that neither commits nor runs a function that could fail, and links to no rule without a definition. -/
def Uncommitted (rules : Rules) : Grammar → Prop
  | .apply _ | .seq .. | .maybeThen .. | .transform .. => False
  | .link l => (rules l.rule).isSome
  | _ => True

section

variable {σ : Type} [Context σ] {rules : Rules} {assigned : RuleId → Modes}

/-- Where all rules are assumed to fail softly at times, a unit that does not commit is mild. -/
theorem Uncommitted.mild {g : Grammar} (h : g.Uncommitted rules) (hsoft : ∀ r, (assigned r).soft) :
    g.Mild σ rules assigned := by
  cases g with
  | link l =>
    obtain ⟨body, hbody⟩ := Option.isSome_iff_exists.1 h
    exact ⟨body, hbody, fun _ => hsoft l.rule⟩
  | apply | seq | maybeThen | transform => exact h.elim
  | _ => trivial

mutual

/-- Made of units that make no hard failure, a unit has none, if that is assumed of the rules. -/
theorem not_hard_of_mild (hassigned : ∀ r, ¬ (assigned r).hard) :
    ∀ g : Grammar, (∀ h, g.Part rules h → h.Mild σ rules assigned) → ¬ (g.modes σ assigned).hard
  | .pop _, _ => id
  | .apply _, hg => fun ⟨s, t, tr, failure, hf⟩ => hg _ .refl s t tr failure hf
  | .seq a b _, hg => by
    have ha := not_hard_of_mild hassigned a fun h hh => hg h (.of_child .seq_head hh)
    have hb := not_hard_of_mild hassigned b fun h hh => hg h (.of_child .seq_tail hh)
    rintro (h | h | h)
    · exact ha h
    · exact hb h
    · exact hg _ .refl h
  | .bind a next _, hg => by
    have ha := not_hard_of_mild hassigned a fun h hh => hg h (.of_child .bind_base hh)
    have hnext := fun v => not_hard_of_mild hassigned (next v) fun h hh => hg h (.of_child (.bind_next v) hh)
    rintro (h | ⟨v, h⟩)
    · exact ha h
    · exact hnext v h
  | .choose a b, hg => by
    have ha := not_hard_of_mild hassigned a fun h hh => hg h (.of_child .choose_first hh)
    have hb := not_hard_of_mild hassigned b fun h hh => hg h (.of_child .choose_second hh)
    rintro (h | ⟨-, h⟩)
    · exact ha h
    · exact hb h
  | .oneOf gs, hg => not_hard_of_mild_all hassigned gs fun g hmem h hh => hg h (.of_child (.candidate hmem) hh)
  | .rescue _ b, hg => fun ⟨_, h⟩ => not_hard_of_mild hassigned b (fun h hh => hg h (.of_child .rescue_fallback hh)) h
  | .maybe a, hg => not_hard_of_mild hassigned a fun h hh => hg h (.of_child .maybe hh)
  | .zeroOrMany a, hg => not_hard_of_mild hassigned a fun h hh => hg h (.of_child .zeroOrMany hh)
  | .maybeThen a b _, hg => by
    have ha := not_hard_of_mild hassigned a fun h hh => hg h (.of_child .maybeThen_before hh)
    have hb := not_hard_of_mild hassigned b fun h hh => hg h (.of_child .maybeThen_next hh)
    rintro (h | h | h)
    · exact ha h
    · exact hb h
    · exact hg _ .refl h
  | .oneOrMany a, hg => not_hard_of_mild hassigned a fun h hh => hg h (.of_child .oneOrMany hh)
  | .map _ a, hg => not_hard_of_mild hassigned a fun h hh => hg h (.of_child .map hh)
  | .wrap _ a, hg => not_hard_of_mild hassigned a fun h hh => hg h (.of_child .wrap hh)
  | .transform _ a, hg => by
    have ha := not_hard_of_mild hassigned a fun h hh => hg h (.of_child .transform hh)
    rintro (h | ⟨v, s, t, tr, failure, hf⟩)
    · exact ha h
    · exact hg _ .refl v s t tr failure hf
  | .link l, _ => hassigned l.rule

/-- An alternation of units that make no hard failure has none. -/
theorem not_hard_of_mild_all (hassigned : ∀ r, ¬ (assigned r).hard) :
    ∀ gs : List Grammar, (∀ g ∈ gs, ∀ h, g.Part rules h → h.Mild σ rules assigned) → ¬ (modesOfAll σ assigned gs).hard
  | [], _ => id
  | g :: gs, hgs => by
    have hg := not_hard_of_mild hassigned g (hgs g List.mem_cons_self)
    have hrest := not_hard_of_mild_all hassigned gs fun g' hmem => hgs g' (List.mem_cons_of_mem _ hmem)
    rintro (h | h)
    · exact hg h
    · exact hrest h

end

/-- Of a grammar made of such units, the modes assumed for the rules cover their bodies. -/
theorem covers_of_mild (hassigned : ∀ r, ¬ (assigned r).hard) {g : Grammar}
    (hg : ∀ h, g.Part rules h → h.Mild σ rules assigned) {l : Link} (hl : g.Part rules (.link l)) :
    Modes.Covers σ rules assigned l.rule := by
  obtain ⟨body, hbody, hsoft⟩ := hg _ hl
  have hhard : ¬ (body.modes σ assigned).hard :=
    not_hard_of_mild hassigned body fun h hh => hg h (hl.trans (Part.of_child (.link hbody) hh))
  simp only [Modes.Covers, hbody]
  exact ⟨hsoft, fun h => absurd h hhard⟩

end

end Grammar

/-! ## The table is sound -/

section

variable {σ : Type} [Context σ] [LawfulContext σ] {rules : Rules} {assigned : RuleId → Modes} {g : Grammar} {s t : σ}
  {o : Outcome Value}

/-- A parse ends in an outcome that the failure modes of its unit allow. -/
theorem Grammar.Yields.allowed (h : g.Yields rules s o t)
    (hrules : ∀ l, g.Part rules (.link l) → Modes.Covers σ rules assigned l.rule) : (Job.unit g).Allows σ assigned o := by
  obtain ⟨tr, hrun⟩ := Grammar.yields_iff_runs.1 h
  refine hrun.allowed ?_
  rintro _ s' before hreach l rfl
  have hpart : (Job.unit g).Holds rules (.link l) := hreach.holds nofun .refl
  exact hrules l hpart

/-- A parse with a grammar made of units that make no hard failure does not fail hard. -/
theorem Grammar.Yields.not_hard_of_mild (h : g.Yields rules s o t) {soft : RuleId → Prop}
    (hg : ∀ h, g.Part rules h → h.Mild σ rules fun r => ⟨soft r, False⟩) (failure : Failure) : o ≠ .hard failure := by
  rintro rfl
  have hallowed := h.allowed fun l hl => Grammar.covers_of_mild (fun _ => id) hg hl
  exact Grammar.not_hard_of_mild (fun _ => id) g hg hallowed

end

/-- With failure modes assumed for the rules that cover those of their bodies, a parse fails softly only if its unit may fail
softly, and hard only if it may fail hard. So a grammar made of units that make no hard failure does not fail hard: one in which
no function fails hard, what a commitment waits for does not fail softly, and every rule has a definition; and in particular one
without functions and commitments. -/
theorem failure_modes_sound {σ : Type} [Context σ] [LawfulContext σ] (rules : Rules) (g : Grammar) :
    (∀ assigned : RuleId → Modes, (∀ l, g.Part rules (.link l) → Modes.Covers σ rules assigned l.rule) →
      ∀ (s : σ) o t, g.Yields rules s o t →
        (o = .soft → (g.modes σ assigned).soft) ∧ ∀ failure, o = .hard failure → (g.modes σ assigned).hard) ∧
    (∀ soft : RuleId → Prop, (∀ h, g.Part rules h → h.Mild σ rules fun r => ⟨soft r, False⟩) →
      ∀ (s : σ) o t, g.Yields rules s o t → ∀ failure, o ≠ .hard failure) ∧
    ((∀ h, g.Part rules h → h.Uncommitted rules) → ∀ (s : σ) o t, g.Yields rules s o t → ∀ failure, o ≠ .hard failure) := by
  refine ⟨fun assigned hrules s o t h => ?_, fun soft hg s o t h => h.not_hard_of_mild hg, fun hg s o t h => ?_⟩
  · have hallowed := h.allowed hrules
    constructor
    · rintro rfl
      exact hallowed
    · rintro failure rfl
      exact hallowed
  · exact h.not_hard_of_mild fun h hh => (hg h hh).mild fun _ => trivial

/-! ### Brackets and signs -/

/-- An opening bracket, which commits to what may follow it. -/
def openingBody : Grammar :=
  .seq (.pop (· == .char '(')) (.maybe (.link ⟨0, false⟩)) (.done .unexpected)

/-- A sign, and what follows it. -/
def signBody : Grammar :=
  .bind (.pop (· == .char '-')) (fun _ => .link ⟨1, false⟩) []

/-- Any number of brackets, at least one; any number of signs, and then a letter. -/
def openingRules : Rules
  | 0 => some openingBody
  | 1 => some (.choose signBody (.pop (· == .char 'a')))
  | _ => none

/-- What the rule for brackets is made of. -/
theorem openingRules_part_zero {h : Grammar} (hpart : (Grammar.link ⟨0, false⟩).Part openingRules h) :
    h = .link ⟨0, false⟩ ∨ h = openingBody ∨ (∃ pred, h = .pop pred) ∨ h = .maybe (.link ⟨0, false⟩) := by
  induction hpart with
  | refl => exact .inl rfl
  | tail _ hchild ih =>
    rcases ih with rfl | rfl | ⟨pred, rfl⟩ | rfl
    · cases hchild with
      | link hbody =>
        cases hbody
        exact .inr (.inl rfl)
    · cases hchild with
      | seq_head => exact .inr (.inr (.inl ⟨_, rfl⟩))
      | seq_tail => exact .inr (.inr (.inr rfl))
    · nomatch hchild
    · cases hchild
      exact .inl rfl

/-- What the rule for signs is made of. -/
theorem openingRules_part_one {h : Grammar} (hpart : (Grammar.link ⟨1, false⟩).Part openingRules h) :
    h = .link ⟨1, false⟩ ∨ (∃ pred, h = .choose signBody (.pop pred)) ∨ h = signBody ∨ ∃ pred, h = .pop pred := by
  induction hpart with
  | refl => exact .inl rfl
  | tail _ hchild ih =>
    rcases ih with rfl | ⟨pred, rfl⟩ | rfl | ⟨pred, rfl⟩
    · cases hchild with
      | link hbody =>
        cases hbody
        exact .inr (.inl ⟨_, rfl⟩)
    · cases hchild with
      | choose_first => exact .inr (.inr (.inl rfl))
      | choose_second => exact .inr (.inr (.inr ⟨pred, rfl⟩))
    · cases hchild with
      | bind_base => exact .inr (.inr (.inr ⟨_, rfl⟩))
      | bind_next => exact .inl rfl
    · nomatch hchild

/-- A bracket makes no hard failure, since what it commits to is optional. -/
theorem openingRules_mild {σ : Type} [Context σ] {h : Grammar} (hpart : (Grammar.link ⟨0, false⟩).Part openingRules h) :
    h.Mild σ openingRules fun _ => ⟨True, False⟩ := by
  rcases openingRules_part_zero hpart with rfl | rfl | ⟨pred, rfl⟩ | rfl
  · exact ⟨openingBody, rfl, fun _ => trivial⟩
  · exact id
  · trivial
  · trivial

/-- The rule for signs neither commits nor runs a function. -/
theorem openingRules_uncommitted {h : Grammar} (hpart : (Grammar.link ⟨1, false⟩).Part openingRules h) :
    h.Uncommitted openingRules := by
  rcases openingRules_part_one hpart with rfl | ⟨pred, rfl⟩ | rfl | ⟨pred, rfl⟩
  · rfl
  · trivial
  · trivial
  · trivial

/-- Where there is no bracket the rule for brackets fails softly, as it may; neither rule fails hard, on any text. -/
theorem openingRules_modes_sound :
    ((Grammar.link ⟨0, false⟩).Yields openingRules (Text.ofString "a") .soft (Text.ofString "a") ∧
      ((Grammar.link ⟨0, false⟩).modes Text fun _ => ⟨True, False⟩).soft) ∧
    (∀ (s : Text) o t, (Grammar.link ⟨0, false⟩).Yields openingRules s o t → ∀ failure, o ≠ .hard failure) ∧
    ∀ (s : Text) o t, (Grammar.link ⟨1, false⟩).Yields openingRules s o t → ∀ failure, o ≠ .hard failure := by
  have hsoft : (Grammar.link ⟨0, false⟩).Yields openingRules (Text.ofString "a") .soft (Text.ofString "a") :=
    Grammar.yields_of_run 10 (by decide +kernel)
  obtain ⟨hmodes, hmild, -⟩ := failure_modes_sound (σ := Text) openingRules (.link ⟨0, false⟩)
  obtain ⟨-, -, huncommitted⟩ := failure_modes_sound (σ := Text) openingRules (.link ⟨1, false⟩)
  refine ⟨⟨hsoft, ?_⟩, hmild (fun _ => True) fun _ => openingRules_mild, huncommitted fun _ => openingRules_uncommitted⟩
  refine (hmodes _ (fun l hl => ?_) _ _ _ hsoft).1 rfl
  exact Grammar.covers_of_mild (fun _ => id) (fun _ => openingRules_mild) hl

end Backtrack
