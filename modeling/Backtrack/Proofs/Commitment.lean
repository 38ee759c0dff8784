import Backtrack.Context.Suffix
import Backtrack.Proofs.Adequacy
import Backtrack.Proofs.Parts
import Mathlib.Data.List.Forall2

/-!
# Commitment and catching

A sequence commits to its second part once the first has matched, and a choice passes the hard failures of its first alternative
on. The sequence made by `bind` does not commit, and a `rescue` catches. Putting these in place of some sequences and choices
of a grammar that catches nothing changes none of its outcomes but the hard failures.
-/

namespace Backtrack

/-- `g.Relaxes g'`: the unit `g'` is `g` with some sequences made by `bind` instead, and some choices by `rescue`; none, all, or
any of those in its parts and in the units that values select. -/
inductive Grammar.Relaxes : Grammar → Grammar → Prop where
  | pop (pred : Value → Bool) : Relaxes (.pop pred) (.pop pred)
  | apply (f : Action (Outcome Value)) : Relaxes (.apply f) (.apply f)
  | seq {a a' b b' : Grammar} (onMissing : Action Failure) :
      Relaxes a a' → Relaxes b b' → Relaxes (.seq a b onMissing) (.seq a' b' onMissing)
  /-- The second part may be missing without a failure. -/
  | seq_bind {a a' b b' : Grammar} (onMissing : Action Failure) (held : List RuleId) :
      Relaxes a a' → Relaxes b b' → Relaxes (.seq a b onMissing) (.bind a' (fun x => .map (.pair x) b') held)
  | bind {a a' : Grammar} {next next' : Value → Grammar} (held held' : List RuleId) :
      Relaxes a a' → (∀ v, Relaxes (next v) (next' v)) → Relaxes (.bind a next held) (.bind a' next' held')
  | choose {a a' b b' : Grammar} : Relaxes a a' → Relaxes b b' → Relaxes (.choose a b) (.choose a' b')
  /-- A hard failure of the first alternative is caught. -/
  | choose_rescue {a a' b b' : Grammar} : Relaxes a a' → Relaxes b b' → Relaxes (.choose a b) (.rescue a' b')
  | oneOf {gs gs' : List Grammar} : List.Forall₂ Relaxes gs gs' → Relaxes (.oneOf gs) (.oneOf gs')
  | rescue {a a' b b' : Grammar} : Relaxes a a' → Relaxes b b' → Relaxes (.rescue a b) (.rescue a' b')
  | maybe {a a' : Grammar} : Relaxes a a' → Relaxes (.maybe a) (.maybe a')
  | maybeThen {a a' b b' : Grammar} (onMissing : Action Failure) :
      Relaxes a a' → Relaxes b b' → Relaxes (.maybeThen a b onMissing) (.maybeThen a' b' onMissing)
  | oneOrMany {a a' : Grammar} : Relaxes a a' → Relaxes (.oneOrMany a) (.oneOrMany a')
  | zeroOrMany {a a' : Grammar} : Relaxes a a' → Relaxes (.zeroOrMany a) (.zeroOrMany a')
  | map {a a' : Grammar} (f : Value → Value) : Relaxes a a' → Relaxes (.map f a) (.map f a')
  | transform {a a' : Grammar} (f : Value → Action (Except Failure Value)) :
      Relaxes a a' → Relaxes (.transform f a) (.transform f a')
  | wrap {a a' : Grammar} (how : Wrapper) : Relaxes a a' → Relaxes (.wrap how a) (.wrap how a')
  | link (l : Link) : Relaxes (.link l) (.link l)

/-- No unit of the grammar catches hard failures. -/
def Grammar.Uncaught (rules : Rules) (g : Grammar) : Prop :=
  ∀ a b, ¬ g.Part rules (.rescue a b)

namespace Grammar.Uncaught

variable {rules : Rules} {a g h : Grammar}

theorem of_child (hg : g.Uncaught rules) (hgh : g.Child rules h) : h.Uncaught rules :=
  fun a b hpart => hg a b (.of_child hgh hpart)

/-- The optional part of a sequence, taken as a unit, catches nothing. -/
theorem maybe (ha : a.Uncaught rules) : (Grammar.maybe a).Uncaught rules := by
  intro c d hpart
  rcases Relation.ReflTransGen.cases_head hpart with heq | ⟨part, hchild, hpart⟩
  · nomatch heq
  · cases hchild
    exact ha c d hpart

end Grammar.Uncaught

namespace Job

/-- The job is done for the replaced units. -/
inductive Relaxes : Job → Job → Prop where
  | unit {g g' : Grammar} : g.Relaxes g' → Relaxes (.unit g) (.unit g')
  | candidates {gs gs' : List Grammar} (index : Nat) :
      List.Forall₂ Grammar.Relaxes gs gs' → Relaxes (.candidates index gs) (.candidates index gs')
  | turns {a a' : Grammar} : a.Relaxes a' → Relaxes (.turns a) (.turns a')

/-- No unit that the job runs catches hard failures. -/
def Uncaught (rules : Rules) : Job → Prop
  | .unit g | .turns g => g.Uncaught rules
  | .candidates _ gs => ∀ g ∈ gs, g.Uncaught rules

end Job

section

variable {σ : Type} [Context σ] {rules rules' : Rules}

/-- Unless it fails hard, the job ends as it does, in the outcome `o` and the context `t`, also with some of its sequences no longer
committed and some of its choices catching. -/
def Relaxed (rules rules' : Rules) (job : Job) (s : σ) (o : Outcome Value) (t : σ) : Prop :=
  ∀ ⦃job' : Job⦄, job.Relaxes job' → job.Uncaught rules → o.isHard = false → ∃ tr, Runs rules' job' s o t tr

namespace Relaxed

variable {a b g : Grammar} {gs : List Grammar} {s t u : σ} {o : Outcome Value} {v w : Value} {vs : List Value} {tr : Trace}

section

variable {onMissing : Action Failure}

/-- Without a match at its head a sequence stops, committed or not. -/
theorem seq_stop (h : Relaxed rules rules' (.unit a) s o t) (ho : o.isMatch = false) :
    Relaxed rules rules' (.unit (.seq a b onMissing)) s o t := by
  rintro job' ⟨hg⟩ hun hsafe
  cases hg with
  | seq _ ha hb =>
    obtain ⟨_, h₁⟩ := h (.unit ha) (hun.of_child .seq_head) hsafe
    exact ⟨_, .seq_stop h₁ ho⟩
  | seq_bind _ held ha hb =>
    obtain ⟨_, h₁⟩ := h (.unit ha) (hun.of_child .seq_head) hsafe
    exact ⟨_, .bind_stop h₁ ho⟩

/-- Where both parts match, it makes no difference whether the first commits. -/
theorem seq_match (h₁ : Relaxed rules rules' (.unit a) s (.matched v) t) (h₂ : Relaxed rules rules' (.unit b) t (.matched w) u) :
    Relaxed rules rules' (.unit (.seq a b onMissing)) s (.matched (.pair v w)) u := by
  rintro job' ⟨hg⟩ hun hsafe
  cases hg with
  | seq _ ha hb =>
    obtain ⟨_, h₁⟩ := h₁ (.unit ha) (hun.of_child .seq_head) rfl
    obtain ⟨_, h₂⟩ := h₂ (.unit hb) (hun.of_child .seq_tail) rfl
    exact ⟨_, .seq_match h₁ h₂⟩
  | seq_bind _ held ha hb =>
    obtain ⟨_, h₁⟩ := h₁ (.unit ha) (hun.of_child .seq_head) rfl
    obtain ⟨_, h₂⟩ := h₂ (.unit hb) (hun.of_child .seq_tail) rfl
    exact ⟨_, .bind_go h₁ (.map_match h₂) rfl⟩

/-- An optional part and the unit after it keep their pair of values. -/
theorem maybeThen_match (h₁ : Relaxed rules rules' (.unit (.maybe a)) s (.matched v) t)
    (h₂ : Relaxed rules rules' (.unit b) t (.matched w) u) :
    Relaxed rules rules' (.unit (.maybeThen a b onMissing)) s (.matched (.pair v w)) u := by
  rintro job' ⟨hg⟩ hun hsafe
  cases hg with
  | maybeThen _ ha hb =>
    obtain ⟨_, h₁⟩ := h₁ (.unit (.maybe ha)) (hun.of_child .maybeThen_before).maybe rfl
    obtain ⟨_, h₂⟩ := h₂ (.unit hb) (hun.of_child .maybeThen_next) rfl
    exact ⟨_, .maybeThen_match h₁ h₂⟩

/-- After an absent part a soft failure stays one. -/
theorem maybeThen_absent (h₁ : Relaxed rules rules' (.unit (.maybe a)) s (.matched (.opt none)) t)
    (h₂ : Relaxed rules rules' (.unit b) t .soft u) : Relaxed rules rules' (.unit (.maybeThen a b onMissing)) s .soft u := by
  rintro job' ⟨hg⟩ hun hsafe
  cases hg with
  | maybeThen _ ha hb =>
    obtain ⟨_, h₁⟩ := h₁ (.unit (.maybe ha)) (hun.of_child .maybeThen_before).maybe rfl
    obtain ⟨_, h₂⟩ := h₂ (.unit hb) (hun.of_child .maybeThen_next) rfl
    exact ⟨_, .maybeThen_absent h₁ h₂⟩

end

section

variable {next : Value → Grammar} {held : List RuleId}

/-- A selection without a value stops as before. -/
theorem bind_stop (h : Relaxed rules rules' (.unit a) s o t) (ho : o.isMatch = false) :
    Relaxed rules rules' (.unit (.bind a next held)) s o t := by
  rintro job' ⟨hg⟩ hun hsafe
  cases hg with
  | bind _ _ ha hnext =>
    obtain ⟨_, h₁⟩ := h (.unit ha) (hun.of_child .bind_base) hsafe
    exact ⟨_, .bind_stop h₁ ho⟩

/-- A selected unit that does not fail softly ends the selection as before. -/
theorem bind_go (h₁ : Relaxed rules rules' (.unit a) s (.matched v) t) (h₂ : Relaxed rules rules' (.unit (next v)) t o u)
    (ho : o.isSoft = false) : Relaxed rules rules' (.unit (.bind a next held)) s o u := by
  rintro job' ⟨hg⟩ hun hsafe
  cases hg with
  | bind _ _ ha hnext =>
    obtain ⟨_, h₁⟩ := h₁ (.unit ha) (hun.of_child .bind_base) rfl
    obtain ⟨_, h₂⟩ := h₂ (.unit (hnext _)) (hun.of_child (.bind_next _)) hsafe
    exact ⟨_, .bind_go h₁ h₂ ho⟩

/-- A selected unit that fails softly leads back to the same context. -/
theorem bind_back {x : σ} (h₁ : Relaxed rules rules' (.unit a) s (.matched v) t)
    (h₂ : Relaxed rules rules' (.unit (next v)) t .soft u) (hr : Context.restore u (Context.backup s) = .ok x) :
    Relaxed rules rules' (.unit (.bind a next held)) s .soft x := by
  rintro job' ⟨hg⟩ hun hsafe
  cases hg with
  | bind _ _ ha hnext =>
    obtain ⟨_, h₁⟩ := h₁ (.unit ha) (hun.of_child .bind_base) rfl
    obtain ⟨_, h₂⟩ := h₂ (.unit (hnext _)) (hun.of_child (.bind_next _)) rfl
    exact ⟨_, .bind_back h₁ h₂ hr⟩

end

/-- A first alternative that matches is not caught. -/
theorem choose_first (h : Relaxed rules rules' (.unit a) s o t) (ho : o.isSoft = false) :
    Relaxed rules rules' (.unit (.choose a b)) s o t := by
  rintro job' ⟨hg⟩ hun hsafe
  cases hg with
  | choose ha hb =>
    obtain ⟨_, h₁⟩ := h (.unit ha) (hun.of_child .choose_first) hsafe
    exact ⟨_, .choose_first h₁ ho⟩
  | choose_rescue ha hb =>
    obtain ⟨_, h₁⟩ := h (.unit ha) (hun.of_child .choose_first) hsafe
    rcases Outcome.isSoft_eq_false_iff.1 ho with ⟨v, rfl⟩ | ⟨failure, rfl⟩
    · exact ⟨_, .rescue_primary h₁⟩
    · nomatch hsafe

/-- A first alternative that fails softly is followed by the second, whether it is caught or not. -/
theorem choose_second {x : σ} (h₁ : Relaxed rules rules' (.unit a) s .soft t)
    (hr : Context.restore t (Context.backup s) = .ok u) (h₂ : Relaxed rules rules' (.unit b) u o x) :
    Relaxed rules rules' (.unit (.choose a b)) s o x := by
  rintro job' ⟨hg⟩ hun hsafe
  cases hg with
  | choose ha hb =>
    obtain ⟨_, h₁⟩ := h₁ (.unit ha) (hun.of_child .choose_first) rfl
    obtain ⟨_, h₂⟩ := h₂ (.unit hb) (hun.of_child .choose_second) hsafe
    exact ⟨_, .choose_second h₁ hr h₂⟩
  | choose_rescue ha hb =>
    obtain ⟨_, h₁⟩ := h₁ (.unit ha) (hun.of_child .choose_first) rfl
    obtain ⟨_, h₂⟩ := h₂ (.unit hb) (hun.of_child .choose_second) hsafe
    exact ⟨_, .rescue_missed h₁ hr h₂⟩

section

variable {index : Nat}

/-- An alternation keeps what its candidates keep. -/
theorem oneOf (h : Relaxed rules rules' (.candidates 0 gs) s o t) : Relaxed rules rules' (.unit (.oneOf gs)) s o t := by
  rintro job' ⟨hg⟩ hun hsafe
  cases hg with
  | oneOf hgs =>
    obtain ⟨_, h₁⟩ := h (.candidates 0 hgs) (fun g hg => hun.of_child (.candidate hg)) hsafe
    exact ⟨_, .oneOf h₁⟩

/-- Without a candidate left both fail softly. -/
theorem candidates_none : Relaxed rules rules' (.candidates index []) s .soft s := by
  intro job' hjob hun hsafe
  cases hjob with
  | candidates _ hgs =>
    cases hgs
    exact ⟨_, .candidates_none⟩

/-- A candidate that does not fail softly decides for both. -/
theorem candidates_here (h : Relaxed rules rules' (.unit g) s o t) (ho : o.isSoft = false) :
    Relaxed rules rules' (.candidates index (g :: gs)) s o t := by
  intro job' hjob hun hsafe
  cases hjob with
  | candidates _ hgs =>
    cases hgs with
    | cons hg hgs =>
      obtain ⟨_, h₁⟩ := h (.unit hg) (hun _ List.mem_cons_self) hsafe
      exact ⟨_, .candidates_here h₁ ho⟩

/-- A candidate that fails softly leaves it to the candidates after it. -/
theorem candidates_next {x : σ} (h₁ : Relaxed rules rules' (.unit g) s .soft t)
    (hr : Context.restore t (Context.backup s) = .ok u) (h₂ : Relaxed rules rules' (.candidates (index + 1) gs) u o x) :
    Relaxed rules rules' (.candidates index (g :: gs)) s o x := by
  intro job' hjob hun hsafe
  cases hjob with
  | candidates _ hgs =>
    cases hgs with
    | cons hg hgs =>
      obtain ⟨_, h₁⟩ := h₁ (.unit hg) (hun _ List.mem_cons_self) rfl
      obtain ⟨_, h₂⟩ := h₂ (.candidates _ hgs) (fun g hg => hun g (List.mem_cons_of_mem _ hg)) hsafe
      exact ⟨_, .candidates_next h₁ hr h₂⟩

end

/-- An optional unit keeps the value of its part. -/
theorem maybe_present (h : Relaxed rules rules' (.unit a) s (.matched v) t) :
    Relaxed rules rules' (.unit (.maybe a)) s (.matched (.opt (some v))) t := by
  rintro job' ⟨hg⟩ hun hsafe
  cases hg with
  | maybe ha =>
    obtain ⟨_, h₁⟩ := h (.unit ha) (hun.of_child .maybe) rfl
    exact ⟨_, .maybe_present h₁⟩

/-- An absent part stays absent. -/
theorem maybe_absent (h : Relaxed rules rules' (.unit a) s .soft t) (hr : Context.restore t (Context.backup s) = .ok u) :
    Relaxed rules rules' (.unit (.maybe a)) s (.matched (.opt none)) u := by
  rintro job' ⟨hg⟩ hun hsafe
  cases hg with
  | maybe ha =>
    obtain ⟨_, h₁⟩ := h (.unit ha) (hun.of_child .maybe) rfl
    exact ⟨_, .maybe_absent h₁ hr⟩

/-- The turns of a repetition stop at the same place. -/
theorem turns_stop (h : Relaxed rules rules' (.unit a) s .soft t) (hr : Context.restore t (Context.backup s) = .ok u) :
    Relaxed rules rules' (.turns a) s (.matched (.list [])) u := by
  intro job' hjob hun hsafe
  cases hjob with
  | turns ha =>
    obtain ⟨_, h₁⟩ := h (.unit ha) hun rfl
    exact ⟨_, .turns_stop h₁ hr⟩

/-- Each turn before keeps its value. -/
theorem turns_more (h₁ : Relaxed rules rules' (.unit a) s (.matched v) t)
    (h₂ : Relaxed rules rules' (.turns a) t (.matched (.list vs)) u) :
    Relaxed rules rules' (.turns a) s (.matched (.list (v :: vs))) u := by
  intro job' hjob hun hsafe
  cases hjob with
  | turns ha =>
    obtain ⟨_, h₁⟩ := h₁ (.unit ha) hun rfl
    obtain ⟨_, h₂⟩ := h₂ (.turns ha) hun rfl
    exact ⟨_, .turns_more h₁ h₂⟩

/-- A repetition without a turn that matched fails softly as before. -/
theorem oneOrMany_none (h : Relaxed rules rules' (.turns a) s (.matched (.list [])) t) :
    Relaxed rules rules' (.unit (.oneOrMany a)) s .soft t := by
  rintro job' ⟨hg⟩ hun hsafe
  cases hg with
  | oneOrMany ha =>
    obtain ⟨_, h₁⟩ := h (.turns ha) (hun.of_child .oneOrMany) rfl
    exact ⟨_, .oneOrMany_none h₁⟩

/-- A repetition with a turn that matched keeps the values of its turns. -/
theorem oneOrMany_some (h : Relaxed rules rules' (.turns a) s (.matched (.list (v :: vs))) t) :
    Relaxed rules rules' (.unit (.oneOrMany a)) s (.matched (.list (v :: vs))) t := by
  rintro job' ⟨hg⟩ hun hsafe
  cases hg with
  | oneOrMany ha =>
    obtain ⟨_, h₁⟩ := h (.turns ha) (hun.of_child .oneOrMany) rfl
    exact ⟨_, .oneOrMany_some h₁⟩

/-- A repetition of any number of matches keeps the values of its turns. -/
theorem zeroOrMany_some (h : Relaxed rules rules' (.turns a) s (.matched (.list vs)) t) :
    Relaxed rules rules' (.unit (.zeroOrMany a)) s (.matched (.list vs)) t := by
  rintro job' ⟨hg⟩ hun hsafe
  cases hg with
  | zeroOrMany ha =>
    obtain ⟨_, h₁⟩ := h (.turns ha) (hun.of_child .zeroOrMany) rfl
    exact ⟨_, .zeroOrMany_some h₁⟩

/-- A converted value stays the same. -/
theorem map_match {f : Value → Value} (h : Relaxed rules rules' (.unit a) s (.matched v) t) :
    Relaxed rules rules' (.unit (.map f a)) s (.matched (f v)) t := by
  rintro job' ⟨hg⟩ hun hsafe
  cases hg with
  | map _ ha =>
    obtain ⟨_, h₁⟩ := h (.unit ha) (hun.of_child .map) rfl
    exact ⟨_, .map_match h₁⟩

/-- What is not matched is not converted. -/
theorem map_stop {f : Value → Value} (h : Relaxed rules rules' (.unit a) s o t) (ho : o.isMatch = false) :
    Relaxed rules rules' (.unit (.map f a)) s o t := by
  rintro job' ⟨hg⟩ hun hsafe
  cases hg with
  | map _ ha =>
    obtain ⟨_, h₁⟩ := h (.unit ha) (hun.of_child .map) hsafe
    exact ⟨_, .map_stop h₁ ho⟩

section

variable {f : Value → Action (Except Failure Value)}

/-- What is not matched is not transformed. -/
theorem transform_stop (h : Relaxed rules rules' (.unit a) s o t) (ho : o.isMatch = false) :
    Relaxed rules rules' (.unit (.transform f a)) s o t := by
  rintro job' ⟨hg⟩ hun hsafe
  cases hg with
  | transform _ ha =>
    obtain ⟨_, h₁⟩ := h (.unit ha) (hun.of_child .transform) hsafe
    exact ⟨_, .transform_stop h₁ ho⟩

/-- The action on a value is the same, and runs on the same context. -/
theorem transform_match (h : Relaxed rules rules' (.unit a) s (.matched v) t) (hf : (f v).run.run t = .ok ⟨.ok w, u, tr⟩) :
    Relaxed rules rules' (.unit (.transform f a)) s (.matched w) u := by
  rintro job' ⟨hg⟩ hun hsafe
  cases hg with
  | transform _ ha =>
    obtain ⟨_, h₁⟩ := h (.unit ha) (hun.of_child .transform) rfl
    exact ⟨_, .transform_match h₁ hf⟩

end

/-- A wrapper keeps what the unit in it keeps. -/
theorem wrap {how : Wrapper} (h : Relaxed rules rules' (.unit a) s o t) : Relaxed rules rules' (.unit (.wrap how a)) s o t := by
  rintro job' ⟨hg⟩ hun hsafe
  cases hg with
  | wrap _ ha =>
    obtain ⟨_, h₁⟩ := h (.unit ha) (hun.of_child .wrap) hsafe
    exact ⟨_, .wrap h₁⟩

/-- A link leads to the body as it stands among the other rules. -/
theorem link (hrules : ∀ id, Option.Rel Grammar.Relaxes (rules id) (rules' id)) {l : Link} {body : Grammar}
    (hbody : rules l.rule = some body) (h : Relaxed rules rules' (.unit body) s o t) :
    Relaxed rules rules' (.unit (.link l)) s o t := by
  rintro job' ⟨hg⟩ hun hsafe
  cases hg with
  | link =>
    have hrule := hrules l.rule
    rw [hbody] at hrule
    generalize hbody' : rules' l.rule = body' at hrule
    cases hrule with
    | some hg =>
      obtain ⟨_, h₁⟩ := h (.unit hg) (hun.of_child (.link hbody)) hsafe
      exact ⟨_, .link hbody' h₁⟩

end Relaxed

/-- A run that does not fail hard is a run of the replaced job, with the same outcome and the same context left. -/
theorem Runs.relaxes (hrules : ∀ id, Option.Rel Grammar.Relaxes (rules id) (rules' id)) {job : Job} {s t : σ}
    {o : Outcome Value} {tr : Trace} (h : Runs rules job s o t tr) : Relaxed rules rules' job s o t := by
  induction h with
  | pop h =>
    rintro job' ⟨hg⟩ - -
    cases hg
    exact ⟨_, .pop h⟩
  | apply h =>
    rintro job' ⟨hg⟩ - -
    cases hg
    exact ⟨_, .apply h⟩
  | seq_stop _ ho ih => exact ih.seq_stop ho
  | seq_match _ _ ih₁ ih₂ => exact ih₁.seq_match ih₂
  | bind_stop _ ho ih => exact ih.bind_stop ho
  | bind_go _ _ ho ih₁ ih₂ => exact ih₁.bind_go ih₂ ho
  | bind_back _ _ hr ih₁ ih₂ => exact ih₁.bind_back ih₂ hr
  | choose_first _ ho ih => exact ih.choose_first ho
  | choose_second _ hr _ ih₁ ih₂ => exact ih₁.choose_second hr ih₂
  | oneOf _ ih => exact ih.oneOf
  | candidates_none => exact .candidates_none
  | candidates_here _ ho ih => exact ih.candidates_here ho
  | candidates_next _ hr _ ih₁ ih₂ => exact ih₁.candidates_next hr ih₂
  | rescue_primary | rescue_missed | rescue_recover => exact fun _ _ hun _ => absurd .refl (hun _ _)
  | maybe_present _ ih => exact ih.maybe_present
  | maybe_absent _ hr ih => exact ih.maybe_absent hr
  | maybeThen_match _ _ ih₁ ih₂ => exact ih₁.maybeThen_match ih₂
  | maybeThen_absent _ _ ih₁ ih₂ => exact ih₁.maybeThen_absent ih₂
  | turns_stop _ hr ih => exact ih.turns_stop hr
  | turns_more _ _ ih₁ ih₂ => exact ih₁.turns_more ih₂
  | oneOrMany_none _ ih => exact ih.oneOrMany_none
  | oneOrMany_some _ ih => exact ih.oneOrMany_some
  | zeroOrMany_some _ ih => exact ih.zeroOrMany_some
  | map_match _ ih => exact ih.map_match
  | map_stop _ ho ih => exact ih.map_stop ho
  | transform_stop _ ho ih => exact ih.transform_stop ho
  | transform_match _ hf ih => exact ih.transform_match hf
  | wrap _ ih => exact ih.wrap
  | link hbody _ ih => exact .link hrules hbody ih
  | _ => exact fun _ _ _ hsafe => nomatch hsafe

/-- Where a grammar that catches nothing matches or fails softly, the grammar with some of its sequences no longer committed and
some of its choices catching, in itself and in the bodies of its rules, has the same outcome, with the same value, and leaves the
same context. -/
theorem relaxing_keeps_outcome (hrules : ∀ id, Option.Rel Grammar.Relaxes (rules id) (rules' id)) {g g' : Grammar}
    (hg : g.Relaxes g') (hun : ∀ a b, ¬ g.Part rules (.rescue a b)) {s t : σ} {o : Outcome Value}
    (h : g.Yields rules s o t) (ho : ∀ failure, o ≠ .hard failure) : g'.Yields rules' s o t := by
  obtain ⟨tr, hrun⟩ := Grammar.yields_iff_runs.1 h
  have hsafe : o.isHard = false := Outcome.isHard_eq_false_iff.2 ho
  exact Grammar.yields_iff_runs.2 (hrun.relaxes hrules (.unit hg) hun hsafe)

end

/-! ### Signs in front of a letter -/

/-- Any number of signs and then a letter; a sign commits. -/
def signRules : Rules
  | 0 => some (.choose (.seq (.pop (· == .char '-')) (.link ⟨0, false⟩) (.done .unexpected)) (.pop (· == .char 'a')))
  | _ => none

/-- The same without commitment, where the failures of the first alternative are caught. -/
def looseSignRules : Rules
  | 0 => some (.rescue (.bind (.pop (· == .char '-')) (fun x => .map (.pair x) (.link ⟨0, false⟩)) [])
      (.pop (· == .char 'a')))
  | _ => none

/-- The second set of rules is the first one relaxed. -/
theorem signRules_relaxes (id : RuleId) : Option.Rel Grammar.Relaxes (signRules id) (looseSignRules id) := by
  cases id with
  | zero => exact .some (.choose_rescue (.seq_bind _ _ (.pop _) (.link _)) (.pop _))
  | succ id => exact .none

/-- The units that the rule for signs is made of. -/
inductive SignPart : Grammar → Prop where
  | rule : SignPart (.link ⟨0, false⟩)
  | body {a b : Grammar} : SignPart a → SignPart b → SignPart (.choose a b)
  | signed {b : Grammar} (pred : Value → Bool) : SignPart b → SignPart (.seq (.pop pred) b (.done .unexpected))
  | item (pred : Value → Bool) : SignPart (.pop pred)

theorem SignPart.of_child {g h : Grammar} (hg : SignPart g) (hgh : g.Child signRules h) : SignPart h := by
  cases hg with
  | rule =>
    cases hgh with
    | link hbody =>
      cases hbody
      exact .body (.signed _ .rule) (.item _)
  | body ha hb =>
    cases hgh
    · exact ha
    · exact hb
  | signed pred hb =>
    cases hgh
    · exact .item pred
    · exact hb
  | item pred => nomatch hgh

theorem SignPart.of_part {g h : Grammar} (hg : SignPart g) (hgh : g.Part signRules h) : SignPart h := by
  induction hgh with
  | refl => exact hg
  | tail _ hchild ih => exact ih.of_child hchild

/-- The rule for signs catches nothing. -/
theorem signRules_uncaught (a b : Grammar) : ¬ (Grammar.link ⟨0, false⟩).Part signRules (.rescue a b) := by
  intro hpart
  nomatch SignPart.rule.of_part hpart

/-- Signs before a letter are parsed without commitment as they are with it. -/
theorem looseSignRules_keep_outcome :
    (Grammar.link ⟨0, false⟩).Yields signRules (Text.ofString "-ab") (.matched (.pair (.char '-') (.char 'a'))) ⟨2, ['b']⟩ ∧
      (Grammar.link ⟨0, false⟩).Yields looseSignRules (Text.ofString "-ab") (.matched (.pair (.char '-') (.char 'a')))
        ⟨2, ['b']⟩ := by
  have h : (Grammar.link ⟨0, false⟩).Yields signRules (Text.ofString "-ab")
      (.matched (.pair (.char '-') (.char 'a'))) ⟨2, ['b']⟩ := Grammar.yields_of_run 10 (by decide +kernel)
  exact ⟨h, relaxing_keeps_outcome signRules_relaxes (.link _) signRules_uncaught h (by simp)⟩

end Backtrack
