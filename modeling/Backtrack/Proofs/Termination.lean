import Backtrack.Proofs.Parts
import Backtrack.Proofs.Progress
import Mathlib.Data.Set.Finite.Basic

/-!
# Termination

A grammar can run forever in two ways only: a repetition whose turns take nothing, and a rule that comes back to itself before an
item is taken. Where neither can happen and the rules are finitely many, every parse returns. The measure is the number of items
left and, where that stays, the unit: the units that can be started with nothing taken yet are finitely deep below each other.
-/

namespace Backtrack

open LawfulContext (InBounds)

section

variable {σ : Type} [Context σ]

/-- The run of the job from the context ends in an outcome. -/
def Returns (rules : Rules) (job : Job) (s : σ) : Prop :=
  ∃ o t tr, Runs rules job s o t tr

/-- An action always ends. -/
theorem Action.returns {α : Type} (f : Action α) (s : σ) : ∃ a t tr, f.run.run s = .ok ⟨a, t, tr⟩ := by
  induction f generalizing s with
  | done a => exact ⟨a, s, .nil, rfl⟩
  | front k ih =>
    obtain ⟨a, t, tr, h⟩ := ih (Context.front s) s
    exact ⟨a, t, _, Engine.run_bind_eq_ok.2 ⟨_, _, _, Engine.run_front s, tr, h, rfl⟩⟩
  | popFront k ih =>
    obtain ⟨a, t, tr, h⟩ := ih (Context.popFront s).1 (Context.popFront s).2
    exact ⟨a, t, _, Engine.run_bind_eq_ok.2 ⟨_, _, _, Engine.run_popFront s, tr, h, rfl⟩⟩
  | remaining k ih =>
    obtain ⟨a, t, tr, h⟩ := ih (Context.remaining s) s
    exact ⟨a, t, _, Engine.run_bind_eq_ok.2 ⟨_, s, .nil, rfl, tr, h, rfl⟩⟩

/-- Takes the first item if it satisfies a predicate. -/
def Action.takeIf (pred : Value → Bool) : Action (Outcome Value) :=
  .front fun
    | none => .done .soft
    | some v => if pred v then .popFront fun item => .done (.ofOption item) else .done .soft

/-- The predicate leaf is an action. -/
theorem Parser.pop_eq_run (pred : Value → Bool) : (Parser.pop pred : Parser σ Value) = (Action.takeIf pred).run := by
  unfold Parser.pop Action.takeIf Action.run
  refine congrArg _ (funext fun item => ?_)
  cases item with
  | none => rfl
  | some v =>
    by_cases hv : pred v = true
    · simp only [hv, if_true]
      rfl
    · simp only [hv]
      rfl

/-- The turns of a repetition end in a list of values or in a hard failure. -/
theorem Runs.turns_outcome {rules : Rules} {a : Grammar} {s t : σ} {o : Outcome Value} {tr : Trace}
    (h : Runs rules (.turns a) s o t tr) : (∃ vs, o = .matched (.list vs)) ∨ ∃ failure, o = .hard failure := by
  cases h with
  | turns_stop | turns_more => exact .inl ⟨_, rfl⟩
  | turns_hard | turns_more_hard => exact .inr ⟨_, rfl⟩

/-- A repetition that may be empty ends as its turns do. -/
theorem Runs.zeroOrMany_of_turns {rules : Rules} {a : Grammar} {s t : σ} {o : Outcome Value} {tr : Trace}
    (h : Runs rules (.turns a) s o t tr) : ∃ tr', Runs rules (.unit (.zeroOrMany a)) s o t tr' := by
  rcases h.turns_outcome with ⟨vs, rfl⟩ | ⟨failure, rfl⟩
  · exact ⟨_, .zeroOrMany_some h⟩
  · exact ⟨_, .zeroOrMany_hard h⟩

end

/-! ## The combinators -/

namespace Returns

section

variable {σ : Type} [Context σ] {rules : Rules} {a b : Grammar} {s : σ}

/-- An action returns, since it is finite. -/
theorem apply (f : Action (Outcome Value)) (s : σ) : Returns rules (.unit (.apply f)) s := by
  obtain ⟨o, t, tr, h⟩ := f.returns s
  exact ⟨o, t, tr, .apply h⟩

/-- The predicate leaf returns, since it looks and takes at most once. -/
theorem pop (pred : Value → Bool) (s : σ) : Returns rules (.unit (.pop pred)) s := by
  obtain ⟨o, t, tr, h⟩ := (Action.takeIf pred).returns s
  rw [← Parser.pop_eq_run] at h
  exact ⟨o, t, tr, .pop h⟩

/-- A sequence returns if its head does, and its tail wherever the head has matched. -/
theorem seq {onMissing : Action Failure} (ha : Returns rules (.unit a) s)
    (hb : ∀ {v t tr}, Runs rules (.unit a) s (.matched v) t tr → Returns rules (.unit b) t) :
    Returns rules (.unit (.seq a b onMissing)) s := by
  obtain ⟨o, t, tr, h₁⟩ := ha
  cases o with
  | soft | hard => exact ⟨_, _, _, .seq_stop h₁ rfl⟩
  | matched v =>
    obtain ⟨o, u, tr', h₂⟩ := hb h₁
    cases o with
    | matched w => exact ⟨_, _, _, .seq_match h₁ h₂⟩
    | hard failure => exact ⟨_, _, _, .seq_hard h₁ h₂⟩
    | soft =>
      obtain ⟨failure, w, tr'', hf⟩ := onMissing.returns u
      exact ⟨_, _, _, .seq_escalate h₁ h₂ hf⟩

/-- A repetition returns if its turns do. -/
theorem zeroOrMany (ha : Returns rules (.turns a) s) : Returns rules (.unit (.zeroOrMany a)) s := by
  obtain ⟨o, t, tr, h⟩ := ha
  exact ⟨o, t, h.zeroOrMany_of_turns⟩

/-- A repetition of at least one match returns if its turns do. -/
theorem oneOrMany (ha : Returns rules (.turns a) s) : Returns rules (.unit (.oneOrMany a)) s := by
  obtain ⟨o, t, tr, h⟩ := ha
  rcases h.turns_outcome with ⟨vs, rfl⟩ | ⟨failure, rfl⟩
  · cases vs with
    | nil => exact ⟨_, _, _, .oneOrMany_none h⟩
    | cons => exact ⟨_, _, _, .oneOrMany_some h⟩
  · exact ⟨_, _, _, .oneOrMany_hard h⟩

/-- A conversion returns if its unit does. -/
theorem map {f : Value → Value} (ha : Returns rules (.unit a) s) : Returns rules (.unit (.map f a)) s := by
  obtain ⟨o, t, tr, h⟩ := ha
  cases o with
  | matched => exact ⟨_, _, _, .map_match h⟩
  | soft | hard => exact ⟨_, _, _, .map_stop h rfl⟩

/-- An action on the value returns, if the unit before it does. -/
theorem transform {f : Value → Action (Except Failure Value)} (ha : Returns rules (.unit a) s) :
    Returns rules (.unit (.transform f a)) s := by
  obtain ⟨o, t, tr, h⟩ := ha
  cases o with
  | soft | hard => exact ⟨_, _, _, .transform_stop h rfl⟩
  | matched v =>
    obtain ⟨x, u, tr', hf⟩ := (f v).returns t
    cases x with
    | ok => exact ⟨_, _, _, .transform_match h hf⟩
    | error => exact ⟨_, _, _, .transform_hard h hf⟩

end

section

variable {σ : Type} [Context σ] [LawfulContext σ] {rules : Rules} {a b : Grammar} {s : σ}

/-- A selection returns if its first unit does, and the selected one wherever that has matched. -/
theorem bind {next : Value → Grammar} {held : List RuleId} (hs : InBounds s) (ha : Returns rules (.unit a) s)
    (hnext : ∀ {v t tr}, Runs rules (.unit a) s (.matched v) t tr → Returns rules (.unit (next v)) t) :
    Returns rules (.unit (.bind a next held)) s := by
  obtain ⟨o, t, tr, h₁⟩ := ha
  cases o with
  | soft | hard => exact ⟨_, _, _, .bind_stop h₁ rfl⟩
  | matched v =>
    obtain ⟨o, u, tr', h₂⟩ := hnext h₁
    cases o with
    | matched | hard => exact ⟨_, _, _, .bind_go h₁ h₂ rfl⟩
    | soft =>
      have hback := LawfulContext.restore_backup hs (h₁.descends.trans h₂.descends)
      exact ⟨_, _, _, .bind_back h₁ h₂ hback⟩

/-- A choice returns if both units do from its own start, to which it can go back. -/
theorem choose (hs : InBounds s) (ha : Returns rules (.unit a) s) (hb : Returns rules (.unit b) s) :
    Returns rules (.unit (.choose a b)) s := by
  obtain ⟨o, t, tr, h₁⟩ := ha
  cases o with
  | matched | hard => exact ⟨_, _, _, .choose_first h₁ rfl⟩
  | soft =>
    obtain ⟨o, u, tr', h₂⟩ := hb
    exact ⟨_, _, _, .choose_second h₁ (LawfulContext.restore_backup hs h₁.descends) h₂⟩

/-- Candidates return if each of them does from the start. -/
theorem candidates {gs : List Grammar} (hs : InBounds s) (hgs : ∀ g ∈ gs, Returns rules (.unit g) s) :
    ∀ index, Returns rules (.candidates index gs) s := by
  induction gs with
  | nil => exact fun _ => ⟨_, _, _, .candidates_none⟩
  | cons g gs ih =>
    intro index
    obtain ⟨o, t, tr, h₁⟩ := hgs g List.mem_cons_self
    cases o with
    | matched | hard => exact ⟨_, _, _, .candidates_here h₁ rfl⟩
    | soft =>
      obtain ⟨o, u, tr', h₂⟩ := ih (fun g hg => hgs g (List.mem_cons_of_mem _ hg)) (index + 1)
      exact ⟨_, _, _, .candidates_next h₁ (LawfulContext.restore_backup hs h₁.descends) h₂⟩

/-- An alternation returns if each of its candidates does from the start. -/
theorem oneOf {gs : List Grammar} (hs : InBounds s) (hgs : ∀ g ∈ gs, Returns rules (.unit g) s) :
    Returns rules (.unit (.oneOf gs)) s := by
  obtain ⟨o, t, tr, h⟩ := candidates hs hgs 0
  exact ⟨o, t, tr, .oneOf h⟩

/-- A recovering unit returns if its primary unit and its fallback do from its own start. -/
theorem rescue (hs : InBounds s) (ha : Returns rules (.unit a) s) (hb : Returns rules (.unit b) s) :
    Returns rules (.unit (.rescue a b)) s := by
  obtain ⟨o, t, tr, h₁⟩ := ha
  have hback := LawfulContext.restore_backup hs h₁.descends
  obtain ⟨o', u, tr', h₂⟩ := hb
  cases o with
  | matched => exact ⟨_, _, _, .rescue_primary h₁⟩
  | soft => exact ⟨_, _, _, .rescue_missed h₁ hback h₂⟩
  | hard => exact ⟨_, _, _, .rescue_recover h₁ hback h₂⟩

/-- An optional unit returns if its part does. -/
theorem maybe (hs : InBounds s) (ha : Returns rules (.unit a) s) : Returns rules (.unit (.maybe a)) s := by
  obtain ⟨o, t, tr, h⟩ := ha
  cases o with
  | matched => exact ⟨_, _, _, .maybe_present h⟩
  | hard => exact ⟨_, _, _, .maybe_hard h⟩
  | soft => exact ⟨_, _, _, .maybe_absent h (LawfulContext.restore_backup hs h.descends)⟩

/-- An optional part and the unit after it return as a sequence does. -/
theorem maybeThen {onMissing : Action Failure} (hs : InBounds s) (ha : Returns rules (.unit a) s)
    (hb : ∀ {v t tr}, Runs rules (.unit (.maybe a)) s (.matched v) t tr → Returns rules (.unit b) t) :
    Returns rules (.unit (.maybeThen a b onMissing)) s := by
  obtain ⟨o, t, tr, h₁⟩ := ha.maybe hs
  cases o with
  | soft => nomatch h₁
  | hard => exact ⟨_, _, _, .maybeThen_stop h₁⟩
  | matched v =>
    obtain ⟨o, u, tr', h₂⟩ := hb h₁
    cases o with
    | matched => exact ⟨_, _, _, .maybeThen_match h₁ h₂⟩
    | hard => exact ⟨_, _, _, .maybeThen_hard h₁ h₂⟩
    | soft =>
      cases h₁ with
      | maybe_absent h hr => exact ⟨_, _, _, .maybeThen_absent (.maybe_absent h hr) h₂⟩
      | maybe_present h =>
        obtain ⟨failure, w, tr'', hf⟩ := onMissing.returns u
        exact ⟨_, _, _, .maybeThen_escalate (.maybe_present h) h₂ hf⟩

/-- A repetition returns when its unit does wherever a turn can start, and each match leaves fewer items. -/
theorem turns (hs : InBounds s) (ha : ∀ {t}, Descends s t → Returns rules (.unit a) t)
    (hshort : ∀ {t u : σ} {v tr}, Runs rules (.unit a) t (.matched v) u tr →
      (Context.remaining u).length < (Context.remaining t).length) : Returns rules (.turns a) s := by
  induction hn : (Context.remaining s).length using Nat.strong_induction_on generalizing s with
  | _ n ih =>
    obtain ⟨o, t, tr, h₁⟩ := ha .refl
    cases o with
    | soft => exact ⟨_, _, _, .turns_stop h₁ (LawfulContext.restore_backup hs h₁.descends)⟩
    | hard => exact ⟨_, _, _, .turns_hard h₁⟩
    | matched v =>
      have hlt : (Context.remaining t).length < n := hn ▸ hshort h₁
      obtain ⟨o, u, tr', h₂⟩ := ih _ hlt (h₁.descends.inBounds hs) (fun h => ha (h₁.descends.trans h)) rfl
      rcases h₂.turns_outcome with ⟨vs, rfl⟩ | ⟨failure, rfl⟩
      · exact ⟨_, _, _, .turns_more h₁ h₂⟩
      · exact ⟨_, _, _, .turns_more_hard h₁ h₂⟩

end

end Returns

namespace Grammar

variable {σ : Type} [Context σ] [LawfulContext σ] {rules : Rules} {g : Grammar} {s : σ}

/-- Within the input a parse that ends returns. -/
theorem ends_iff_returns (hs : InBounds s) : g.Ends rules s ↔ Returns rules (.unit g) s := by
  constructor
  · rintro ⟨fuel, hends⟩
    rcases g.eval_ok_or_outOfFuel rules fuel hs with ⟨⟨o, t, tr⟩, hrun⟩ | hrun
    · exact ⟨o, t, tr, runs_iff_eval.2 ⟨fuel, hrun⟩⟩
    · exact absurd hrun hends
  · rintro ⟨o, t, tr, h⟩
    obtain ⟨fuel, hrun⟩ := runs_iff_eval.1 h
    exact ⟨fuel, by rw [hrun]; nofun⟩

/-- The same in terms of what the parse returns. -/
theorem ends_iff_yields (hs : InBounds s) : g.Ends rules s ↔ ∃ o t, g.Yields rules s o t := by
  rw [ends_iff_returns hs]
  simp only [yields_iff_runs, Returns]

/-- Units with the same outcome end alike. -/
theorem ends_congr {g' : Grammar} (hs : InBounds s)
    (h : ∀ o, (∃ t, g.Yields rules s o t) ↔ ∃ t, g'.Yields rules s o t) : g.Ends rules s ↔ g'.Ends rules s := by
  rw [ends_iff_yields hs, ends_iff_yields hs]
  exact exists_congr h

end Grammar

/-! ## What can be started before an item is taken -/

namespace Grammar

/-- `Leads σ rules assigned g h`: the unit `h`, run by the unit `g` itself, can be started before an item is taken. Every part can,
but for the second part of a sequence whose first part is consuming. -/
inductive Leads (σ : Type) [Context σ] (rules : Rules) (assigned : RuleId → Prop) : Grammar → Grammar → Prop where
  | seq_head {a b : Grammar} {onMissing : Action Failure} : Leads σ rules assigned (.seq a b onMissing) a
  | seq_tail {a b : Grammar} {onMissing : Action Failure} :
      ¬ a.Consuming σ assigned → Leads σ rules assigned (.seq a b onMissing) b
  | bind_base {a : Grammar} {next : Value → Grammar} {held : List RuleId} : Leads σ rules assigned (.bind a next held) a
  | bind_next {a : Grammar} {next : Value → Grammar} {held : List RuleId} (v : Value) :
      ¬ a.Consuming σ assigned → Leads σ rules assigned (.bind a next held) (next v)
  | choose_first {a b : Grammar} : Leads σ rules assigned (.choose a b) a
  | choose_second {a b : Grammar} : Leads σ rules assigned (.choose a b) b
  | candidate {g : Grammar} {gs : List Grammar} : g ∈ gs → Leads σ rules assigned (.oneOf gs) g
  | rescue_primary {a b : Grammar} : Leads σ rules assigned (.rescue a b) a
  | rescue_fallback {a b : Grammar} : Leads σ rules assigned (.rescue a b) b
  | maybe {a : Grammar} : Leads σ rules assigned (.maybe a) a
  | maybeThen_before {a b : Grammar} {onMissing : Action Failure} : Leads σ rules assigned (.maybeThen a b onMissing) a
  | maybeThen_next {a b : Grammar} {onMissing : Action Failure} : Leads σ rules assigned (.maybeThen a b onMissing) b
  | oneOrMany {a : Grammar} : Leads σ rules assigned (.oneOrMany a) a
  | zeroOrMany {a : Grammar} : Leads σ rules assigned (.zeroOrMany a) a
  | map {f : Value → Value} {a : Grammar} : Leads σ rules assigned (.map f a) a
  | transform {f : Value → Action (Except Failure Value)} {a : Grammar} : Leads σ rules assigned (.transform f a) a
  | wrap {how : Wrapper} {a : Grammar} : Leads σ rules assigned (.wrap how a) a
  | link {l : Link} {body : Grammar} : rules l.rule = some body → Leads σ rules assigned (.link l) body

section

variable {σ : Type} [Context σ] {rules : Rules} {assigned : RuleId → Prop} {g h : Grammar}

/-- What a unit leads to is a part of it. -/
theorem Leads.child (hgh : g.Leads σ rules assigned h) : g.Child rules h := by
  cases hgh with
  | bind_next v => exact .bind_next v
  | candidate hg => exact .candidate hg
  | link hbody => exact .link hbody
  | _ => constructor

/-- A part is an inner one, for which no rule is needed, or the body of a rule. -/
theorem Child.inner_or_body (hgh : g.Child rules h) :
    g.Child (fun _ => none) h ∨ ∃ l, g = .link l ∧ rules l.rule = some h := by
  cases hgh with
  | bind_next v => exact .inl (.bind_next v)
  | candidate hg => exact .inl (.candidate hg)
  | link hbody => exact .inr ⟨_, rfl, hbody⟩
  | _ => exact .inl (by constructor)

end

mutual

/-- The inner parts of a unit are finitely deep. -/
theorem acc_inner : (g : Grammar) → Acc (fun h g : Grammar => g.Child (fun _ => none) h) g
  | .pop _ | .apply _ => ⟨_, nofun⟩
  | .link _ => ⟨_, fun _ hchild => by cases hchild; contradiction⟩
  | .seq a b _ => ⟨_, fun _ hchild => by
      cases hchild
      · exact acc_inner a
      · exact acc_inner b⟩
  | .bind a next _ => ⟨_, fun _ hchild => by
      cases hchild with
      | bind_base => exact acc_inner a
      | bind_next v => exact acc_inner (next v)⟩
  | .choose a b => ⟨_, fun _ hchild => by
      cases hchild
      · exact acc_inner a
      · exact acc_inner b⟩
  | .oneOf gs => ⟨_, fun g hchild => by
      cases hchild with
      | candidate hg => exact acc_inner_list gs g hg⟩
  | .rescue a b => ⟨_, fun _ hchild => by
      cases hchild
      · exact acc_inner a
      · exact acc_inner b⟩
  | .maybe a => ⟨_, fun _ hchild => by cases hchild; exact acc_inner a⟩
  | .maybeThen a b _ => ⟨_, fun _ hchild => by
      cases hchild
      · exact acc_inner a
      · exact acc_inner b⟩
  | .oneOrMany a => ⟨_, fun _ hchild => by cases hchild; exact acc_inner a⟩
  | .zeroOrMany a => ⟨_, fun _ hchild => by cases hchild; exact acc_inner a⟩
  | .map _ a => ⟨_, fun _ hchild => by cases hchild; exact acc_inner a⟩
  | .transform _ a => ⟨_, fun _ hchild => by cases hchild; exact acc_inner a⟩
  | .wrap _ a => ⟨_, fun _ hchild => by cases hchild; exact acc_inner a⟩

/-- The units of a list are finitely deep. -/
theorem acc_inner_list : (gs : List Grammar) → ∀ g ∈ gs, Acc (fun h g : Grammar => g.Child (fun _ => none) h) g
  | [] => nofun
  | g :: gs => fun h hh => by
    rcases List.mem_cons.1 hh with heq | hh
    · rw [heq]
      exact acc_inner g
    · exact acc_inner_list gs h hh

end

end Grammar

/-! ## Well-formed grammars -/

/-- A grammar that comes to finitely many rules with a body, repeats consuming units only, and in which no rule leads to itself.
Which units are consuming is said on the assumption that the rules in `assigned` are. -/
structure Grammar.WellFormed (σ : Type) [Context σ] (rules : Rules) (assigned : RuleId → Prop) (g : Grammar) : Prop where
  finite : {id | (rules id).isSome ∧ ∃ owner, g.Part rules (.link ⟨id, owner⟩)}.Finite
  repeated {a : Grammar} : g.Part rules (.oneOrMany a) ∨ g.Part rules (.zeroOrMany a) → a.Consuming σ assigned
  acyclic {l l' : Link} : g.Part rules (.link l) → l.rule = l'.rule →
    ¬ Relation.TransGen (Grammar.Leads σ rules assigned) (.link l) (.link l')

section

variable {σ : Type} [Context σ] {rules : Rules} {assigned : RuleId → Prop} {root g : Grammar}

/-- A part of a well-formed grammar that leads to rules among `ids` only is finitely deep in what it leads to. The body of a rule does
not lead back to the rule, so it leads to fewer of them. -/
theorem Grammar.WellFormed.acc_of_leads_to (hroot : root.WellFormed σ rules assigned) (ids : Finset RuleId) :
    ∀ g, root.Part rules g →
      (∀ l body, Relation.ReflTransGen (Leads σ rules assigned) g (.link l) → rules l.rule = some body → l.rule ∈ ids) →
      Acc (fun h g : Grammar => g.Leads σ rules assigned h) g := by
  induction ids using Finset.strongInduction with
  | H ids ih =>
    intro g
    induction g.acc_inner with
    | intro g _ ihg =>
      intro hpart hids
      refine ⟨_, fun h hlead => ?_⟩
      have hpart' : root.Part rules h := hpart.tail hlead.child
      rcases hlead.child.inner_or_body with hinner | ⟨l, rfl, hbody⟩
      · exact ihg h hinner hpart' fun l body hl => hids l body (.head hlead hl)
      · have hl : l.rule ∈ ids := hids l h .refl hbody
        refine ih (ids.erase l.rule) (Finset.erase_ssubset hl) h hpart' fun l' body hl' hbody' => ?_
        refine Finset.mem_erase.2 ⟨fun heq => ?_, hids l' body (.head hlead hl') hbody'⟩
        exact hroot.acyclic hpart heq.symm (Relation.TransGen.head' hlead hl')

/-- In a well-formed grammar what leads to what is well-founded. -/
theorem Grammar.WellFormed.acc_leads (hroot : root.WellFormed σ rules assigned) (hpart : root.Part rules g) :
    Acc (fun h g : Grammar => g.Leads σ rules assigned h) g := by
  refine hroot.acc_of_leads_to hroot.finite.toFinset g hpart fun l body hl hbody => ?_
  have hlink : root.Part rules (.link l) := hpart.trans (Relation.ReflTransGen.mono (fun _ _ => Leads.child) _ _ hl)
  exact hroot.finite.mem_toFinset.2 ⟨by rw [hbody]; rfl, l.owner, hlink⟩

variable [LawfulContext σ] [CountingContext σ]

/-- A part of a well-formed grammar returns from every context within the input. The parts that it leads to may be started where it is
itself started; any other part is started after a consuming one, with fewer items left. -/
theorem Grammar.WellFormed.returns (hrules : rules.Assigned σ assigned) (hroot : root.WellFormed σ rules assigned) (n : Nat) :
    ∀ g, root.Part rules g → ∀ s : σ, InBounds s → (Context.remaining s).length ≤ n → Returns rules (.unit g) s := by
  induction n using Nat.strong_induction_on with
  | _ n ihn =>
    intro g hpart
    induction hroot.acc_leads hpart with
    | intro g _ ihg =>
      intro s hs hn
      have here : ∀ {h t}, g.Leads σ rules assigned h → Descends s t → Returns rules (.unit h) t := by
        intro h t hlead hst
        exact ihg h hlead (hpart.tail hlead.child) t (hst.inBounds hs) (hst.length_le.trans hn)
      have later : ∀ {a h t v tr}, g.Child rules h → a.Consuming σ assigned → Runs rules (.unit a) s (.matched v) t tr →
          Returns rules (.unit h) t := by
        intro a h t v tr hchild ha hrun
        have hlt := hrun.shortens hrules ha
        exact ihn _ (by omega) h (hpart.tail hchild) t (hrun.descends.inBounds hs) (Nat.le_refl _)
      cases g with
      | pop pred => exact .pop pred s
      | apply f => exact .apply f s
      | seq a b onMissing =>
        refine .seq (here .seq_head .refl) fun hrun => ?_
        by_cases ha : a.Consuming σ assigned
        · exact later .seq_tail ha hrun
        · exact here (.seq_tail ha) hrun.descends
      | bind a next held =>
        refine .bind hs (here .bind_base .refl) fun {v t tr} hrun => ?_
        by_cases ha : a.Consuming σ assigned
        · exact later (.bind_next v) ha hrun
        · exact here (.bind_next v ha) hrun.descends
      | choose a b => exact .choose hs (here .choose_first .refl) (here .choose_second .refl)
      | oneOf gs => exact .oneOf hs fun g hg => here (.candidate hg) .refl
      | rescue a b => exact .rescue hs (here .rescue_primary .refl) (here .rescue_fallback .refl)
      | maybe a => exact .maybe hs (here .maybe .refl)
      | maybeThen a b onMissing =>
        exact .maybeThen hs (here .maybeThen_before .refl) fun hrun => here .maybeThen_next hrun.descends
      | oneOrMany a =>
        have ha := hroot.repeated (.inl hpart)
        exact (Returns.turns hs (here .oneOrMany) fun hrun => hrun.shortens hrules ha).oneOrMany
      | zeroOrMany a =>
        have ha := hroot.repeated (.inr hpart)
        exact (Returns.turns hs (here .zeroOrMany) fun hrun => hrun.shortens hrules ha).zeroOrMany
      | map f a => exact (here .map .refl).map
      | transform f a => exact (here .transform .refl).transform
      | wrap how a =>
        obtain ⟨o, t, tr, h⟩ := here .wrap .refl
        exact ⟨o, t, tr, .wrap h⟩
      | link l =>
        cases hbody : rules l.rule with
        | none => exact ⟨_, _, _, .link_unbound hbody⟩
        | some body =>
          obtain ⟨o, t, tr, h⟩ := here (.link hbody) .refl
          exact ⟨o, t, tr, .link hbody h⟩

/-- Let the rules in `assigned` be consuming on the assumption that they are. Then every match of a consuming unit leaves fewer
items than there were, and a well-formed grammar returns, in an outcome, from every context within its input. -/
theorem well_formed_returns (hrules : rules.Assigned σ assigned) :
    (∀ g : Grammar, g.Consuming σ assigned → ∀ (s t : σ) (v : Value), g.Yields rules s (.matched v) t →
      (Context.remaining t).length < (Context.remaining s).length) ∧
    ∀ g : Grammar, g.WellFormed σ rules assigned → ∀ s : σ, InBounds s → ∃ o t, g.Yields rules s o t := by
  refine ⟨?_, ?_⟩
  · intro g hg s t v h
    obtain ⟨tr, hrun⟩ := Grammar.yields_iff_runs.1 h
    exact hrun.shortens hrules hg
  · intro g hg s hs
    obtain ⟨o, t, tr, hrun⟩ := hg.returns hrules _ g .refl s hs (Nat.le_refl _)
    exact ⟨o, t, Grammar.yields_iff_runs.2 ⟨tr, hrun⟩⟩

end

/-! ### Nested brackets -/

/-- An opening bracket, any number of the same again, and a closing bracket. -/
def bracketBody : Grammar :=
  .seq (.pop (· == .char '(')) (.seq (.zeroOrMany (.link ⟨0, false⟩)) (.pop (· == .char ')')) (.done .unexpected))
    (.done .unexpected)

/-- The only rule is that of nested brackets. -/
def bracketRules : Rules
  | 0 => some bracketBody
  | _ => none

/-- The units that the rule for brackets is made of. -/
inductive BracketPart : Grammar → Prop where
  | rule : BracketPart (.link ⟨0, false⟩)
  | body : BracketPart bracketBody
  | item (pred : Value → Bool) : BracketPart (.pop pred)
  | inside {a b : Grammar} : BracketPart a → BracketPart b → BracketPart (.seq a b (.done .unexpected))
  | many : BracketPart (.zeroOrMany (.link ⟨0, false⟩))

theorem BracketPart.of_part {g : Grammar} (h : (Grammar.link ⟨0, false⟩).Part bracketRules g) : BracketPart g := by
  induction h with
  | refl => exact .rule
  | tail _ hchild ih =>
    cases ih with
    | rule =>
      cases hchild with
      | link hbody =>
        cases hbody
        exact .body
    | body =>
      cases hchild
      · exact .item _
      · exact .inside .many (.item _)
    | item pred => nomatch hchild
    | inside ha hb =>
      cases hchild
      · exact ha
      · exact hb
    | many =>
      cases hchild
      exact .rule

/-- The rule for brackets takes an item whenever it matches. -/
theorem bracketRules_assigned : bracketRules.Assigned Text (· = 0) := by
  rintro id body rfl hbody
  cases hbody
  exact .seq_head (.pop _)

/-- Before an item is taken the rule leads to its body and to the opening bracket only. -/
theorem eq_of_bracket_leads {l : Link} {g : Grammar} (hl : l.rule = 0)
    (h : Relation.TransGen (Grammar.Leads Text bracketRules (· = 0)) (.link l) g) : g = bracketBody ∨ ∃ pred, g = .pop pred := by
  induction h with
  | single hlead =>
    cases hlead with
    | link hbody =>
      rw [hl] at hbody
      exact .inl (Option.some.inj hbody).symm
  | tail _ hlead ih =>
    rcases ih with rfl | ⟨pred, rfl⟩
    · cases hlead with
      | seq_head => exact .inr ⟨_, rfl⟩
      | seq_tail hhead => exact absurd (.pop _) hhead
    · nomatch hlead

/-- The rule for brackets repeats consuming units only, and does not come back to itself before an item is taken. -/
theorem bracketRules_wellFormed : (Grammar.link ⟨0, false⟩).WellFormed Text bracketRules (· = 0) where
  finite := by
    refine (Set.finite_singleton 0).subset ?_
    rintro id ⟨hbound, -⟩
    cases id with
    | zero => rfl
    | succ id => nomatch hbound
  repeated {a} h := by
    rcases h with h | h
    · nomatch BracketPart.of_part h
    · cases BracketPart.of_part h
      exact .link rfl
  acyclic {l l'} hpart hrule hleads := by
    have hl : l.rule = 0 := by
      cases BracketPart.of_part hpart
      rfl
    rcases eq_of_bracket_leads hl hleads with heq | ⟨pred, heq⟩ <;> nomatch heq

/-- The rule takes the brackets `(())`, all of them, and it returns from `(()` as well, where one is missing. -/
theorem bracketRules_return :
    (∃ v, (Grammar.link ⟨0, false⟩).Yields bracketRules (Text.ofString "(())") (.matched v) ⟨4, []⟩ ∧
      (Context.remaining (⟨4, []⟩ : Text)).length < (Context.remaining (Text.ofString "(())")).length) ∧
    ∃ o t, (Grammar.link ⟨0, false⟩).Yields bracketRules (Text.ofString "(()") o t := by
  obtain ⟨hshort, hreturns⟩ := well_formed_returns bracketRules_assigned
  have h : (Grammar.link ⟨0, false⟩).Yields bracketRules (Text.ofString "(())")
      (.matched (.pair (.char '(') (.pair (.list [.pair (.char '(') (.pair (.list []) (.char ')'))]) (.char ')')))) ⟨4, []⟩ :=
    Grammar.yields_of_run 20 (by decide +kernel)
  exact ⟨⟨_, h, hshort _ (.link rfl) _ _ _ h⟩, hreturns _ bracketRules_wellFormed _ trivial⟩

end Backtrack
