import Backtrack.Proofs.SoftFailure
import Backtrack.Proofs.Termination

/-!
# Committed sequences

A committed sequence of several units is written with brackets, two parts at a time. Where the brackets stand makes no difference:
the units run in order, and where one after the first is missing, the action that belongs to it makes the failure on the context
that the unit left, once, be it the tail of a sequence or the head of one that is itself a tail. A sequence whose first part is
optional is a choice of two committed sequences, with that part and without it.
-/

namespace Backtrack

open LawfulContext (InBounds)

/-! ## Brackets -/

/-- Units in a committed sequence, with brackets. -/
inductive Bracketing where
  | unit (g : Grammar)
  /-- Two parts; `onMissing` makes the failure where the second is missing. -/
  | seq (left right : Bracketing) (onMissing : Action Failure)

namespace Bracketing

/-- The unit that the brackets make. -/
def grammar : Bracketing → Grammar
  | .unit g => g
  | .seq l r onMissing => .seq l.grammar r.grammar onMissing

/-- The unit that stands first. -/
def first : Bracketing → Grammar
  | .unit g => g
  | .seq l _ _ => l.first

/-- The units after the first in their order, each with what makes the failure where it is missing. -/
def rest : Bracketing → List (Action Failure × Grammar)
  | .unit _ => []
  | .seq l r onMissing => l.rest ++ (onMissing, r.first) :: r.rest

/-- All units in their order. -/
def units (b : Bracketing) : List Grammar :=
  b.first :: b.rest.map Prod.snd

/-- The values of the units in their order, read off the pairs that a match is made of. -/
def values : Bracketing → Value → List Value
  | .unit _, v => [v]
  | .seq l r _, .pair v w => l.values v ++ r.values w
  | .seq .., _ => []

/-- The units of a sequence are those of its two parts, in order. -/
theorem units_seq (l r : Bracketing) (onMissing : Action Failure) : (seq l r onMissing).units = l.units ++ r.units := by
  simp [units, first, rest]

end Bracketing

section

variable {σ : Type} [Context σ]

/-- The parse of the bracketed sequence from the context `s` returns the outcome `o`, with the values of the units in their order if
it is a match; it leaves the context `t` and does what `tr` records. -/
def Bracketing.Yields (rules : Rules) (b : Bracketing) (s : σ) (o : Outcome (List Value)) (t : σ) (tr : Trace) : Prop :=
  ∃ fuel o', (b.grammar.eval rules fuel).run s = .ok ⟨o', t, tr⟩ ∧ o'.map b.values = o

/-- `InTurn rules gs s vs t tr`: from the context `s` on the units match one after another, with the values `vs`. -/
inductive InTurn (rules : Rules) : List Grammar → σ → List Value → σ → Trace → Prop where
  | nil {s : σ} : InTurn rules [] s [] s .nil
  | cons {g : Grammar} {gs : List Grammar} {s t u : σ} {v : Value} {vs : List Value} {tr₁ tr₂ : Trace} :
      Runs rules (.unit g) s (.matched v) t tr₁ → InTurn rules gs t vs u tr₂ →
      InTurn rules (g :: gs) s (v :: vs) u (tr₁ ++ tr₂)

/-- `BreaksOff rules rest s failure t tr`: from the context `s` on the units of `rest` match one after another up to the first that
does not, and that one ends in the failure. -/
inductive BreaksOff (rules : Rules) : List (Action Failure × Grammar) → σ → Failure → σ → Trace → Prop where
  /-- The unit fails hard itself. -/
  | hard {onMissing : Action Failure} {g : Grammar} {rest : List (Action Failure × Grammar)} {s t : σ} {failure : Failure}
      {tr : Trace} :
      Runs rules (.unit g) s (.hard failure) t tr → BreaksOff rules ((onMissing, g) :: rest) s failure t tr
  /-- The unit is missing, and the failure is made on the context that it left. -/
  | missing {onMissing : Action Failure} {g : Grammar} {rest : List (Action Failure × Grammar)} {s t u : σ} {failure : Failure}
      {tr₁ tr₂ : Trace} :
      Runs rules (.unit g) s .soft t tr₁ → onMissing.run.run t = .ok ⟨failure, u, tr₂⟩ →
      BreaksOff rules ((onMissing, g) :: rest) s failure u (tr₁ ++ (tr₂ ++ .event (.tailMissed failure)))
  | later {onMissing : Action Failure} {g : Grammar} {rest : List (Action Failure × Grammar)} {s t u : σ} {v : Value}
      {failure : Failure} {tr₁ tr₂ : Trace} :
      Runs rules (.unit g) s (.matched v) t tr₁ → BreaksOff rules rest t failure u tr₂ →
      BreaksOff rules ((onMissing, g) :: rest) s failure u (tr₁ ++ tr₂)

variable {rules : Rules} {s t : σ} {tr : Trace}

/-- Units match in turn where the first matches and the others do from there on. -/
theorem inTurn_cons {g : Grammar} {gs : List Grammar} {vs : List Value} :
    InTurn rules (g :: gs) s vs t tr ↔ ∃ v vs' u tr₁ tr₂,
      Runs rules (.unit g) s (.matched v) u tr₁ ∧ InTurn rules gs u vs' t tr₂ ∧ v :: vs' = vs ∧ tr₁ ++ tr₂ = tr := by
  constructor
  · intro h
    cases h with
    | cons hg hgs => exact ⟨_, _, _, _, _, hg, hgs, rfl, rfl⟩
  · rintro ⟨v, vs', u, tr₁, tr₂, hg, hgs, rfl, rfl⟩
    exact .cons hg hgs

/-- A list of units matches in turn when its two parts do. -/
theorem inTurn_append {gs hs : List Grammar} {vs : List Value} :
    InTurn rules (gs ++ hs) s vs t tr ↔ ∃ vs₁ vs₂ u tr₁ tr₂,
      InTurn rules gs s vs₁ u tr₁ ∧ InTurn rules hs u vs₂ t tr₂ ∧ vs₁ ++ vs₂ = vs ∧ tr₁ ++ tr₂ = tr := by
  induction gs generalizing s vs tr with
  | nil =>
    constructor
    · intro h
      exact ⟨[], vs, s, .nil, tr, .nil, h, rfl, Trace.nil_append tr⟩
    · rintro ⟨_, vs₂, _, _, tr₂, hnil, h, rfl, rfl⟩
      cases hnil
      rwa [Trace.nil_append]
  | cons g gs ih =>
    constructor
    · intro h
      cases h with
      | cons hg hrest =>
        obtain ⟨vs₁, vs₂, u, tr₁, tr₂, hgs, hhs, rfl, rfl⟩ := ih.1 hrest
        exact ⟨_, vs₂, u, _, tr₂, .cons hg hgs, hhs, rfl, Trace.append_assoc _ _ _⟩
    · rintro ⟨_, vs₂, u, _, tr₂, hgs, hhs, rfl, rfl⟩
      cases hgs with
      | cons hg hgs =>
        rw [Trace.append_assoc]
        exact .cons hg (ih.2 ⟨_, vs₂, u, _, tr₂, hgs, hhs, rfl, rfl⟩)

/-- The first unit that does not match stands in the first part, or the first part matches and it stands in the second. -/
theorem breaksOff_append {rest more : List (Action Failure × Grammar)} {failure : Failure} :
    BreaksOff rules (rest ++ more) s failure t tr ↔ BreaksOff rules rest s failure t tr ∨ ∃ vs u tr₁ tr₂,
      InTurn rules (rest.map Prod.snd) s vs u tr₁ ∧ BreaksOff rules more u failure t tr₂ ∧ tr₁ ++ tr₂ = tr := by
  induction rest generalizing s tr with
  | nil =>
    constructor
    · intro h
      exact .inr ⟨[], s, .nil, tr, .nil, h, Trace.nil_append tr⟩
    · rintro (h | ⟨_, _, _, tr₂, hnil, h, rfl⟩)
      · nomatch h
      · cases hnil
        rwa [Trace.nil_append]
  | cons p rest ih =>
    obtain ⟨onMissing, g⟩ := p
    constructor
    · intro h
      cases h with
      | hard hg => exact .inl (.hard hg)
      | missing hg hf => exact .inl (.missing hg hf)
      | later hg hrest =>
        rcases ih.1 hrest with hrest | ⟨vs, u, tr₁, tr₂, hturn, hmore, rfl⟩
        · exact .inl (.later hg hrest)
        · exact .inr ⟨_, u, _, tr₂, .cons hg hturn, hmore, Trace.append_assoc _ _ _⟩
    · rintro (h | ⟨_, u, _, tr₂, hturn, hmore, rfl⟩)
      · cases h with
        | hard hg => exact .hard hg
        | missing hg hf => exact .missing hg hf
        | later hg hrest => exact .later hg (ih.2 (.inl hrest))
      · cases hturn with
        | cons hg hturn =>
          rw [Trace.append_assoc]
          exact .later hg (ih.2 (.inr ⟨_, u, _, tr₂, hturn, hmore, rfl⟩))

/-! ## What a bracketed sequence does -/

namespace Bracketing

/-- A bracketing yields the values of its grammar in one list. -/
theorem yields_iff {b : Bracketing} {o : Outcome (List Value)} :
    b.Yields rules s o t tr ↔ ∃ o', Runs rules (.unit b.grammar) s o' t tr ∧ o'.map b.values = o := by
  simp only [Yields, runs_iff_eval]
  constructor
  · rintro ⟨fuel, o', hrun, ho⟩
    exact ⟨o', ⟨fuel, hrun⟩, ho⟩
  · rintro ⟨o', ⟨fuel, hrun⟩, ho⟩
    exact ⟨fuel, o', hrun, ho⟩

/-- The sequence fails softly exactly where its first unit does. -/
theorem runs_soft_iff (b : Bracketing) :
    Runs rules (.unit b.grammar) s .soft t tr ↔ Runs rules (.unit b.first) s .soft t tr := by
  induction b with
  | unit g => exact .rfl
  | seq l r onMissing ihl _ =>
    constructor
    · intro h
      cases h with
      | seq_stop h _ => exact ihl.1 h
    · intro h
      exact .seq_stop (ihl.2 h) rfl

/-- The sequence matches exactly where its units match in turn, and their values are those of the match. -/
theorem runs_matched_iff (b : Bracketing) {vs : List Value} :
    (∃ v, Runs rules (.unit b.grammar) s (.matched v) t tr ∧ b.values v = vs) ↔ InTurn rules b.units s vs t tr := by
  induction b generalizing s t tr vs with
  | unit g =>
    constructor
    · rintro ⟨v, h, rfl⟩
      have hturn : InTurn rules [g] s [v] t (tr ++ .nil) := .cons h .nil
      rwa [Trace.append_nil] at hturn
    · intro h
      cases h with
      | cons h hnil =>
        cases hnil
        rw [Trace.append_nil]
        exact ⟨_, h, rfl⟩
  | seq l r onMissing ihl ihr =>
    rw [units_seq, inTurn_append]
    constructor
    · rintro ⟨_, h, rfl⟩
      cases h with
      | seq_match h₁ h₂ => exact ⟨_, _, _, _, _, ihl.1 ⟨_, h₁, rfl⟩, ihr.1 ⟨_, h₂, rfl⟩, rfl, rfl⟩
      | seq_stop _ ho => nomatch ho
    · rintro ⟨_, _, u, tr₁, tr₂, h₁, h₂, rfl, rfl⟩
      obtain ⟨v, hl, rfl⟩ := ihl.2 h₁
      obtain ⟨w, hr, rfl⟩ := ihr.2 h₂
      exact ⟨.pair v w, .seq_match hl hr, rfl⟩

/-- Where a bracketed sequence has matched and the units after it break off, they do so after its own units. -/
theorem breaksOff_after (b : Bracketing) {more : List (Action Failure × Grammar)} {v : Value} {u : σ} {failure : Failure}
    {tr₁ tr₂ : Trace} (hb : Runs rules (.unit b.grammar) s (.matched v) u tr₁) (hmore : BreaksOff rules more u failure t tr₂) :
    ∃ w u' tr₃ tr₄, Runs rules (.unit b.first) s (.matched w) u' tr₃ ∧ BreaksOff rules (b.rest ++ more) u' failure t tr₄ ∧
      tr₃ ++ tr₄ = tr₁ ++ tr₂ := by
  have hunits : InTurn rules b.units s (b.values v) u tr₁ := b.runs_matched_iff.1 ⟨v, hb, rfl⟩
  obtain ⟨w, vs, u', tr₃, tr₄, hfirst, hturn, -, rfl⟩ := inTurn_cons.1 hunits
  refine ⟨w, u', tr₃, tr₄ ++ tr₂, hfirst, ?_, (Trace.append_assoc _ _ _).symm⟩
  exact breaksOff_append.2 (.inr ⟨vs, u, tr₄, tr₂, hturn, hmore, rfl⟩)

/-- The sequence fails hard exactly where its first unit does, or where that one matches and the others break off. -/
theorem runs_hard_iff (b : Bracketing) {failure : Failure} :
    Runs rules (.unit b.grammar) s (.hard failure) t tr ↔ Runs rules (.unit b.first) s (.hard failure) t tr ∨
      ∃ v u tr₁ tr₂, Runs rules (.unit b.first) s (.matched v) u tr₁ ∧ BreaksOff rules b.rest u failure t tr₂ ∧
        tr₁ ++ tr₂ = tr := by
  induction b generalizing s t tr with
  | unit g =>
    constructor
    · exact .inl
    · rintro (h | ⟨_, _, _, _, _, h, _⟩)
      · exact h
      · nomatch h
  | seq l r onMissing ihl ihr =>
    constructor
    · intro h
      cases h with
      | seq_stop h _ =>
        refine (ihl.1 h).imp_right ?_
        rintro ⟨v, u, tr₁, tr₂, hfirst, hrest, htr⟩
        exact ⟨v, u, tr₁, tr₂, hfirst, breaksOff_append.2 (.inl hrest), htr⟩
      | @seq_hard _ _ _ _ u _ _ _ tr₁ tr₂ h₁ h₂ =>
        -- the second part is a sequence of its own, in which the failure came at the head or later
        have hmore : BreaksOff rules ((onMissing, r.first) :: r.rest) u failure t tr₂ := by
          rcases ihr.1 h₂ with hhead | ⟨_, _, _, _, hhead, hlater, rfl⟩
          · exact .hard hhead
          · exact .later hhead hlater
        exact .inr (l.breaksOff_after h₁ hmore)
      | seq_escalate h₁ h₂ hf => exact .inr (l.breaksOff_after h₁ (.missing (r.runs_soft_iff.1 h₂) hf))
    · rintro (hfirst | ⟨v, u, tr₁, _, hfirst, hrest, rfl⟩)
      · exact .seq_stop (ihl.2 (.inl hfirst)) rfl
      · rcases breaksOff_append.1 hrest with hrest | ⟨vs, u', tr₂, tr₃, hturn, hmore, rfl⟩
        · exact .seq_stop (ihl.2 (.inr ⟨v, u, tr₁, _, hfirst, hrest, rfl⟩)) rfl
        · obtain ⟨x, hl, -⟩ := l.runs_matched_iff.2 (.cons hfirst hturn)
          rw [← Trace.append_assoc]
          cases hmore with
          | hard hhead => exact .seq_hard hl (ihr.2 (.inl hhead))
          | missing hhead hf => exact .seq_escalate hl (r.runs_soft_iff.2 hhead) hf
          | later hhead hlater => exact .seq_hard hl (ihr.2 (.inr ⟨_, _, _, _, hhead, hlater, rfl⟩))

/-- A bracketing fails softly exactly where its first unit does. -/
theorem yields_soft_iff (b : Bracketing) : b.Yields rules s .soft t tr ↔ Runs rules (.unit b.first) s .soft t tr := by
  rw [← runs_soft_iff, yields_iff]
  simp

/-- A bracketing matches exactly where its units match in turn. -/
theorem yields_matched_iff (b : Bracketing) {vs : List Value} :
    b.Yields rules s (.matched vs) t tr ↔ InTurn rules b.units s vs t tr := by
  rw [← runs_matched_iff, yields_iff]
  simp

/-- A bracketing fails hard where its first unit does, or where the units after it break off. -/
theorem yields_hard_iff (b : Bracketing) {failure : Failure} :
    b.Yields rules s (.hard failure) t tr ↔ Runs rules (.unit b.first) s (.hard failure) t tr ∨
      ∃ v u tr₁ tr₂, Runs rules (.unit b.first) s (.matched v) u tr₁ ∧ BreaksOff rules b.rest u failure t tr₂ ∧
        tr₁ ++ tr₂ = tr := by
  rw [← runs_hard_iff, yields_iff]
  simp

/-- What a bracketed sequence does depends on its units and on the actions that belong to them only. -/
theorem yields_congr {b b' : Bracketing} (hfirst : b.first = b'.first) (hrest : b.rest = b'.rest) {o : Outcome (List Value)} :
    b.Yields rules s o t tr ↔ b'.Yields rules s o t tr := by
  cases o with
  | soft => rw [yields_soft_iff, yields_soft_iff, hfirst]
  | matched vs => rw [yields_matched_iff, yields_matched_iff, units, units, hfirst, hrest]
  | hard failure => rw [yields_hard_iff, yields_hard_iff, hfirst, hrest]

/-- The parse of a bracketed sequence returns exactly when the parse of the unit does. -/
theorem returns_iff (b : Bracketing) : Returns rules (.unit b.grammar) s ↔ ∃ o t tr, b.Yields rules s o t tr := by
  simp only [yields_iff, Returns]
  constructor
  · rintro ⟨o, t, tr, h⟩
    exact ⟨o.map b.values, t, tr, o, h, rfl⟩
  · rintro ⟨_, t, tr, o, h, -⟩
    exact ⟨o, t, tr, h⟩

end Bracketing

/-- A committed sequence of units, in whatever brackets, fails softly exactly where its first unit does; it matches exactly where all
units match in turn, with their values in order; and it fails hard exactly where the first unit does, or where the units after it
match up to one that does not, which fails hard itself, or is missing, and then the action that belongs to it makes the failure on
the context that it left. So two sequences of the same units with the same actions have the same outcome, but for the shape of the
pairs, leave the same context, make the same calls and report the same events, all in the same order; and one ends exactly when
the other does. -/
theorem brackets_change_nothing (rules : Rules) (s : σ) :
    (∀ b : Bracketing,
      (∀ t tr, b.Yields rules s .soft t tr ↔ Runs rules (.unit b.first) s .soft t tr) ∧
      (∀ vs t tr, b.Yields rules s (.matched vs) t tr ↔ InTurn rules b.units s vs t tr) ∧
      ∀ failure t tr, b.Yields rules s (.hard failure) t tr ↔ Runs rules (.unit b.first) s (.hard failure) t tr ∨
        ∃ v u tr₁ tr₂, Runs rules (.unit b.first) s (.matched v) u tr₁ ∧ BreaksOff rules b.rest u failure t tr₂ ∧
          tr₁ ++ tr₂ = tr) ∧
    ∀ b b' : Bracketing, b.first = b'.first → b.rest = b'.rest →
      (∀ o t tr, b.Yields rules s o t tr ↔ b'.Yields rules s o t tr) ∧
      ∀ [LawfulContext σ], InBounds s → (b.grammar.Ends rules s ↔ b'.grammar.Ends rules s) := by
  refine ⟨fun b => ⟨fun t tr => b.yields_soft_iff, fun vs t tr => b.yields_matched_iff, fun failure t tr => b.yields_hard_iff⟩, ?_⟩
  intro b b' hfirst hrest
  refine ⟨fun o t tr => Bracketing.yields_congr hfirst hrest, ?_⟩
  intro _ hin
  rw [Grammar.ends_iff_returns hin, Grammar.ends_iff_returns hin, b.returns_iff, b'.returns_iff]
  simp only [Bracketing.yields_congr hfirst hrest]

end

/-! ### Three letters in brackets -/

/-- The letters `a`, `b` and `c`, the first two in brackets; where `b` is missing, an item is taken before the failure is made. -/
def leftBrackets : Bracketing :=
  .seq (.seq (.unit (.pop (· == .char 'a'))) (.unit (.pop (· == .char 'b'))) (.popFront fun _ => .done (.note "no b")))
    (.unit (.pop (· == .char 'c'))) (.done .unexpected)

/-- The same with the last two letters in brackets. -/
def rightBrackets : Bracketing :=
  .seq (.unit (.pop (· == .char 'a')))
    (.seq (.unit (.pop (· == .char 'b'))) (.unit (.pop (· == .char 'c'))) (.done .unexpected))
    (.popFront fun _ => .done (.note "no b"))

/-- On `acd` the letter `b` is the tail of a sequence in one of them and the head of a tail in the other. In both the action for `b`
takes the letter `c`, and its failure is reported once. On `abcd` both have the three letters for their values. -/
theorem leftBrackets_as_rightBrackets :
    (∃ tr, leftBrackets.Yields (fun _ => none) (Text.ofString "acd") (.hard (.note "no b")) ⟨2, ['d']⟩ tr ∧
      rightBrackets.Yields (fun _ => none) (Text.ofString "acd") (.hard (.note "no b")) ⟨2, ['d']⟩ tr ∧
      tr.calls = [.front 0, .popFront 0, .front 1, .popFront 1] ∧ tr.events = [.tailMissed (.note "no b")]) ∧
    (∃ tr, rightBrackets.Yields (fun _ => none) (Text.ofString "abcd") (.matched [.char 'a', .char 'b', .char 'c'])
      ⟨3, ['d']⟩ tr) ∧
    (leftBrackets.grammar.Ends (fun _ => none) (Text.ofString "acd") ↔
      rightBrackets.grammar.Ends (fun _ => none) (Text.ofString "acd")) := by
  have hsame := fun text => (brackets_change_nothing (fun _ => none) (Text.ofString text)).2 leftBrackets rightBrackets rfl rfl
  have hbroken : leftBrackets.Yields (fun _ => none) (Text.ofString "acd") (.hard (.note "no b")) ⟨2, ['d']⟩
      (.ofList [.call (.front 0), .call (.popFront 0), .call (.front 1), .call (.popFront 1),
        .event (.tailMissed (.note "no b"))]) := ⟨4, .hard (.note "no b"), by decide +kernel, rfl⟩
  have hmatched : leftBrackets.Yields (fun _ => none) (Text.ofString "abcd") (.matched [.char 'a', .char 'b', .char 'c'])
      ⟨3, ['d']⟩ (.ofList [.call (.front 0), .call (.popFront 0), .call (.front 1), .call (.popFront 1), .call (.front 2),
        .call (.popFront 2)]) :=
    ⟨4, .matched (.pair (.pair (.char 'a') (.char 'b')) (.char 'c')), by decide +kernel, rfl⟩
  exact ⟨⟨_, hbroken, ((hsame "acd").1 _ _ _).1 hbroken, rfl, rfl⟩, ⟨_, ((hsame "abcd").1 _ _ _).1 hmatched⟩,
    (hsame "acd").2 trivial⟩

/-! ## An optional part in front -/

namespace Grammar

/-- A choice between the two parts in a committed sequence, the first shown as present, and the second part alone, with the first
shown as absent. -/
def withOrWithout (a b : Grammar) (onMissing : Action Failure) : Grammar :=
  .choose (.seq (.map (fun v => .opt (some v)) a) b onMissing) (.map (.pair (.opt none)) b)

/-- The parse of a unit from the context `s` returns the outcome `o` and leaves the context `t`, after the calls on it that are
listed. -/
def YieldsAfter {σ : Type} [Context σ] (rules : Rules) (g : Grammar) (s : σ) (o : Outcome Value) (t : σ) (calls : List Call) :
    Prop :=
  ∃ fuel tr, (g.eval rules fuel).run s = .ok ⟨o, t, tr⟩ ∧ tr.calls = calls

end Grammar

section

variable {σ : Type} [Context σ] {rules : Rules} {a b : Grammar} {onMissing : Action Failure} {s t : σ} {o : Outcome Value}
  {tr : Trace}

/-- What a unit yields after some calls is what a run with these calls ends in. -/
theorem Grammar.yieldsAfter_iff_runs {g : Grammar} {calls : List Call} :
    g.YieldsAfter rules s o t calls ↔ ∃ tr, Runs rules (.unit g) s o t tr ∧ tr.calls = calls := by
  simp only [YieldsAfter, runs_iff_eval]
  constructor
  · rintro ⟨fuel, tr, hrun, hcalls⟩
    exact ⟨tr, ⟨fuel, hrun⟩, hcalls⟩
  · rintro ⟨tr, ⟨fuel, hrun⟩, hcalls⟩
    exact ⟨fuel, tr, hrun, hcalls⟩

/-- What the sequence with an optional part does, the choice does, but for what it reports. -/
theorem Runs.withOrWithout (h : Runs rules (.unit (.maybeThen a b onMissing)) s o t tr) :
    ∃ tr', Runs rules (.unit (a.withOrWithout b onMissing)) s o t tr' ∧ tr'.calls = tr.calls := by
  cases h with
  | maybeThen_stop h =>
    cases h with
    | maybe_hard h => exact ⟨_, .choose_first (.seq_stop (.map_stop h rfl) rfl) rfl, rfl⟩
  | maybeThen_match h hb =>
    cases h with
    | maybe_present h => exact ⟨_, .choose_first (.seq_match (.map_match h) hb) rfl, by simp⟩
    | maybe_absent h hr => exact ⟨_, .choose_second (.seq_stop (.map_stop h rfl) rfl) hr (.map_match hb), by simp⟩
  | maybeThen_hard h hb =>
    cases h with
    | maybe_present h => exact ⟨_, .choose_first (.seq_hard (.map_match h) hb) rfl, by simp⟩
    | maybe_absent h hr => exact ⟨_, .choose_second (.seq_stop (.map_stop h rfl) rfl) hr (.map_stop hb rfl), by simp⟩
  | maybeThen_absent h hb =>
    cases h with
    | maybe_absent h hr => exact ⟨_, .choose_second (.seq_stop (.map_stop h rfl) rfl) hr (.map_stop hb rfl), by simp⟩
  | maybeThen_escalate h hb hf =>
    cases h with
    | maybe_present h => exact ⟨_, .choose_first (.seq_escalate (.map_match h) hb hf) rfl, by simp⟩

/-- What the choice does, the sequence with an optional part does, but for what it reports. -/
theorem Runs.maybeThen_of_withOrWithout (h : Runs rules (.unit (a.withOrWithout b onMissing)) s o t tr) :
    ∃ tr', Runs rules (.unit (.maybeThen a b onMissing)) s o t tr' ∧ tr'.calls = tr.calls := by
  cases h with
  | choose_first h ho =>
    cases h with
    | seq_stop h hstop =>
      cases h with
      | map_match => nomatch hstop
      | map_stop h =>
        rcases Outcome.isMatch_eq_false_iff.1 hstop with rfl | ⟨failure, rfl⟩
        · nomatch ho
        · exact ⟨_, .maybeThen_stop (.maybe_hard h), rfl⟩
    | seq_match h hb =>
      cases h with
      | map_match h => exact ⟨_, .maybeThen_match (.maybe_present h) hb, by simp⟩
      | map_stop _ hstop => nomatch hstop
    | seq_hard h hb =>
      cases h with
      | map_match h => exact ⟨_, .maybeThen_hard (.maybe_present h) hb, by simp⟩
      | map_stop _ hstop => nomatch hstop
    | seq_escalate h hb hf =>
      cases h with
      | map_match h => exact ⟨_, .maybeThen_escalate (.maybe_present h) hb hf, by simp⟩
      | map_stop _ hstop => nomatch hstop
  | choose_second h hr hb =>
    cases h with
    | seq_stop h _ =>
      cases h with
      | map_stop h _ =>
        cases hb with
        | map_match hb => exact ⟨_, .maybeThen_match (.maybe_absent h hr) hb, by simp⟩
        | map_stop hb hstop =>
          rcases Outcome.isMatch_eq_false_iff.1 hstop with rfl | ⟨failure, rfl⟩
          · exact ⟨_, .maybeThen_absent (.maybe_absent h hr) hb, by simp⟩
          · exact ⟨_, .maybeThen_hard (.maybe_absent h hr) hb, by simp⟩

/-- A sequence with an optional first part, committed if that part is present, ends as the choice between the two parts in a
committed sequence and the second part alone: with the same outcome and the same context left, after the same calls in the same
order; and one ends exactly when the other does. -/
theorem optional_part_is_choice (rules : Rules) (a b : Grammar) (onMissing : Action Failure) (s : σ) :
    (∀ o t calls, (Grammar.maybeThen a b onMissing).YieldsAfter rules s o t calls ↔
      (a.withOrWithout b onMissing).YieldsAfter rules s o t calls) ∧
    ∀ [LawfulContext σ], InBounds s →
      ((Grammar.maybeThen a b onMissing).Ends rules s ↔ (a.withOrWithout b onMissing).Ends rules s) := by
  constructor
  · intro o t calls
    simp only [Grammar.yieldsAfter_iff_runs]
    constructor
    · rintro ⟨tr, h, rfl⟩
      exact h.withOrWithout
    · rintro ⟨tr, h, rfl⟩
      exact h.maybeThen_of_withOrWithout
  · intro _ hin
    rw [Grammar.ends_iff_returns hin, Grammar.ends_iff_returns hin]
    constructor
    · rintro ⟨o, t, tr, h⟩
      obtain ⟨tr', h', -⟩ := h.withOrWithout
      exact ⟨o, t, tr', h'⟩
    · rintro ⟨o, t, tr, h⟩
      obtain ⟨tr', h', -⟩ := h.maybeThen_of_withOrWithout
      exact ⟨o, t, tr', h'⟩

end

/-! ### A sign in front of a careless leaf -/

/-- An optional sign and then a leaf that takes an item and fails softly; an item is taken before the failure is made. -/
def signThenCareless : Grammar :=
  .maybeThen (.pop (· == .char '-')) carelessLeaf (.popFront fun _ => .done .unexpected)

/-- With the sign the leaf and the action take one item each before the failure; without it the leaf fails softly, and what it took
stays taken. The choice does the same. -/
theorem signThenCareless_is_choice :
    (Grammar.withOrWithout (.pop (· == .char '-')) carelessLeaf (.popFront fun _ => .done .unexpected)).YieldsAfter
      (fun _ => none) (Text.ofString "-ab") (.hard .unexpected) ⟨3, []⟩
      [.backup 0, .front 0, .popFront 0, .popFront 1, .popFront 2] ∧
    (Grammar.withOrWithout (.pop (· == .char '-')) carelessLeaf (.popFront fun _ => .done .unexpected)).YieldsAfter
      (fun _ => none) (Text.ofString "ab") .soft ⟨1, ['b']⟩ [.backup 0, .front 0, .restore 0, .popFront 0] ∧
    (signThenCareless.Ends (fun _ => none) (Text.ofString "ab") ↔
      (Grammar.withOrWithout (.pop (· == .char '-')) carelessLeaf (.popFront fun _ => .done .unexpected)).Ends
        (fun _ => none) (Text.ofString "ab")) := by
  have hsame := fun text => optional_part_is_choice (fun _ => none) (.pop (· == .char '-')) carelessLeaf
    (.popFront fun _ => .done .unexpected) (Text.ofString text)
  have hpresent : signThenCareless.YieldsAfter (fun _ => none) (Text.ofString "-ab") (.hard .unexpected) ⟨3, []⟩
      [.backup 0, .front 0, .popFront 0, .popFront 1, .popFront 2] :=
    ⟨4, .ofList [.call (.backup 0), .call (.front 0), .call (.popFront 0), .call (.popFront 1), .call (.popFront 2),
      .event (.nextMissed .unexpected)], by decide +kernel, rfl⟩
  have habsent : signThenCareless.YieldsAfter (fun _ => none) (Text.ofString "ab") .soft ⟨1, ['b']⟩
      [.backup 0, .front 0, .restore 0, .popFront 0] :=
    ⟨4, .ofList [.call (.backup 0), .call (.front 0), .call (.restore 0), .call (.popFront 0)], by decide +kernel, rfl⟩
  exact ⟨((hsame "-ab").1 _ _ _).1 hpresent, ((hsame "ab").1 _ _ _).1 habsent, (hsame "ab").2 trivial⟩

end Backtrack
