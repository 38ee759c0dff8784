import Backtrack.Proofs.Invocations
import Backtrack.Proofs.SoftFailure

/-!
# Hard failures escape

A unit that fails hard ends every unit around it in the same way: each passes the failure on, leaves the context where the
failure left it, and does nothing more. The one exception is a recovering unit whose primary unit fails hard, be it deep inside:
it goes back to where it was started and does what its fallback does there.
-/

namespace Backtrack

open LawfulContext (InBounds)

/-- Whether a job catches the hard failures of the `n`-th job that it starts: a recovering unit does, of its primary unit. -/
def Job.catches : Job → Nat → Bool
  | .unit (.rescue _ _), 0 => true
  | _, _ => false

section

variable {σ : Type} [Context σ] {rules : Rules} {job job' : Job} {s s' t : σ} {n : Nat} {failure : Failure}
  {before tr : Trace}

/-- Nothing on the way from one job to the other catches a hard failure. -/
abbrev Passes (rules : Rules) (job : Job) (s : σ) (job' : Job) (s' : σ) (before : Trace) : Prop :=
  Reaches rules (fun job n => job.catches n = false) job s job' s' before

/-! ## One invocation -/

/-- A job passes on the hard failure of a job that it started, unless it catches it, and does nothing more. -/
theorem Invokes.escapes (hinv : Invokes rules job s n job' s' before) (hn : job.catches n = false)
    (hrun : Runs rules job' s' (.hard failure) t tr) : Runs rules job s (.hard failure) t (before ++ tr) := by
  cases hinv with
  | seq_head => exact .seq_stop hrun rfl
  | seq_tail h => exact .seq_hard h hrun
  | bind_base => exact .bind_stop hrun rfl
  | bind_next h =>
    rw [Trace.append_assoc]
    exact .bind_go h hrun rfl
  | choose_first => exact .choose_first hrun rfl
  | choose_second h hr =>
    simp only [Trace.append_assoc]
    exact .choose_second h hr hrun
  | oneOf => exact .oneOf hrun
  | candidates_here => exact .candidates_here hrun rfl
  | candidates_next h hr =>
    simp only [Trace.append_assoc]
    exact .candidates_next h hr hrun
  | rescue_primary => nomatch hn
  | rescue_missed h hr =>
    simp only [Trace.append_assoc]
    exact .rescue_missed h hr hrun
  | rescue_recover h hr =>
    simp only [Trace.append_assoc]
    exact .rescue_recover h hr hrun
  | maybe => exact .maybe_hard hrun
  | maybeThen_before => exact .maybeThen_stop hrun
  | maybeThen_next h => exact .maybeThen_hard h hrun
  | turns_base => exact .turns_hard hrun
  | turns_more h =>
    rw [Trace.append_assoc]
    exact .turns_more_hard h hrun
  | oneOrMany => exact .oneOrMany_hard hrun
  | zeroOrMany => exact .zeroOrMany_hard hrun
  | map => exact .map_stop hrun rfl
  | transform => exact .transform_stop hrun rfl
  | wrap => exact .wrap hrun
  | link hbody => exact .link hbody hrun

/-- After a hard failure that it does not catch a job starts no other. -/
theorem Invokes.last (hinv : Invokes rules job s n job' s' before) (hn : job.catches n = false)
    (hrun : Runs rules job' s' (.hard failure) t tr) {m : Nat} {job₂ : Job} {s₂ : σ} {before₂ : Trace}
    (hinv₂ : Invokes rules job s m job₂ s₂ before₂) : m ≤ n := by
  cases hinv₂ with
  | seq_tail h =>
    cases hinv with
    | seq_head => nomatch (h.unique hrun).1
    | seq_tail => exact Nat.le_refl 1
  | bind_next h =>
    cases hinv with
    | bind_base => nomatch (h.unique hrun).1
    | bind_next => exact Nat.le_refl 1
  | choose_second h _ =>
    cases hinv with
    | choose_first => nomatch (h.unique hrun).1
    | choose_second => exact Nat.le_refl 1
  | candidates_next h _ =>
    cases hinv with
    | candidates_here => nomatch (h.unique hrun).1
    | candidates_next => exact Nat.le_refl 1
  | rescue_missed | rescue_recover =>
    cases hinv with
    | rescue_primary => nomatch hn
    | rescue_missed | rescue_recover => exact Nat.le_refl 1
  | maybeThen_next h =>
    cases hinv with
    | maybeThen_before => nomatch (h.unique hrun).1
    | maybeThen_next => exact Nat.le_refl 1
  | turns_more h =>
    cases hinv with
    | turns_base => nomatch (h.unique hrun).1
    | turns_more => exact Nat.le_refl 1
  | _ => exact Nat.zero_le n

/-! ## The way out -/

/-- A hard failure is passed on all the way to a job if nothing on the way catches it. -/
theorem Reaches.escapes (h : Passes rules job s job' s' before) (hrun : Runs rules job' s' (.hard failure) t tr) :
    Runs rules job s (.hard failure) t (before ++ tr) := by
  induction h generalizing tr with
  | here => exact hrun
  | invoke _ hinv hn ih =>
    rw [Trace.append_assoc]
    exact ih (hinv.escapes hn hrun)

/-- Either nothing on the way catches a hard failure, or there is a recovering unit that does, the nearest one. -/
theorem Reaches.nearest (h : Reaches rules (fun _ _ => True) job s job' s' before) :
    Passes rules job s job' s' before ∨ ∃ a b u before₁ before₂,
      Reaches rules (fun _ _ => True) job s (.unit (.rescue a b)) u before₁ ∧ Passes rules (.unit a) u job' s' before₂ ∧
        before = before₁ ++ (.opened u ++ before₂) := by
  induction h with
  | here => exact .inl .here
  | @invoke job₁ job₂ s₁ s₂ n before₁ tr hreach hinv _ ih =>
    cases hn : job₁.catches n with
    | true =>
      cases hinv with
      | rescue_primary => exact .inr ⟨_, _, _, _, .nil, hreach, .here, by rw [Trace.append_nil]⟩
      | _ => nomatch hn
    | false =>
      rcases ih with hpass | ⟨a, b, u, before₂, before₃, hrescue, hpass, rfl⟩
      · exact .inl (.invoke hpass hinv hn)
      · exact .inr ⟨a, b, u, before₂, before₃ ++ tr, hrescue, .invoke hpass hinv hn, by simp only [Trace.append_assoc]⟩

/-- A recovering unit whose primary unit fails hard does what its fallback does from where it was started. -/
theorem runs_rescue_iff {a b : Grammar} {o : Outcome Value} {u w : σ} {tr' : Trace}
    (hprimary : Runs rules (.unit a) s (.hard failure) t tr) (hr : Context.restore t (Context.backup s) = .ok u) :
    Runs rules (.unit (.rescue a b)) s o w tr' ↔ ∃ tr₂, Runs rules (.unit b) u o w tr₂ ∧
      tr' = .opened s ++ (tr ++ (.event (.recovering failure) ++ (.rewound u ++ tr₂))) := by
  constructor
  · intro h
    cases h with
    | rescue_primary h => nomatch (hprimary.unique h).1
    | rescue_missed h _ _ => nomatch (hprimary.unique h).1
    | rescue_recover h hr' hfallback =>
      obtain ⟨hfailure, rfl, rfl⟩ := hprimary.unique h
      cases hfailure
      cases hr.symm.trans hr'
      exact ⟨_, hfallback, rfl⟩
  · rintro ⟨tr₂, hfallback, rfl⟩
    exact .rescue_recover hprimary hr hfallback

end

/-! ## The leaves of what is started -/

namespace Grammar

/-- An exposed part of a unit is a part of it. -/
theorem ExposedChild.child {rules : Rules} {g h : Grammar} (hgh : g.ExposedChild rules h) : g.Child rules h := by
  cases hgh with
  | seq_head => exact .seq_head
  | bind_base => exact .bind_base
  | choose_second => exact .choose_second
  | rescue_fallback => exact .rescue_fallback
  | maybeThen_next => exact .maybeThen_next
  | map => exact .map
  | transform => exact .transform
  | wrap => exact .wrap
  | link hbody => exact .link hbody

/-- What is exposed in a unit is a part of it. -/
theorem Exposed.part {rules : Rules} {g h : Grammar} (hgh : g.Exposed rules h) : g.Part rules h :=
  Relation.ReflTransGen.mono (fun _ _ => ExposedChild.child) _ _ hgh

end Grammar

section

variable {σ : Type} [Context σ] {rules : Rules} {s s' : σ} {before : Trace}

/-! ## Where a failure is made -/

variable {a b : Grammar} {onMissing : Action Failure} {failure : Failure} {t u k : σ} {v : Value} {tr tr₁ tr₂ : Trace}

/-- A committed sequence whose second part is missing fails as `onMissing` says on the context that this part left. -/
theorem Runs.seq_made (h : Runs rules (.unit (.seq a b onMissing)) s (.hard failure) k tr)
    (hhead : Runs rules (.unit a) s (.matched v) t tr₁) (htail : Runs rules (.unit b) t .soft u tr₂) :
    ∃ tr₃, onMissing.run.run u = .ok ⟨failure, k, tr₃⟩ := by
  cases h with
  | seq_stop h₁ ho => nomatch (hhead.unique h₁).1
  | seq_hard h₁ h₂ =>
    obtain ⟨-, rfl, -⟩ := hhead.unique h₁
    nomatch (htail.unique h₂).1
  | seq_escalate h₁ h₂ hf =>
    obtain ⟨-, rfl, -⟩ := hhead.unique h₁
    obtain ⟨-, rfl, -⟩ := htail.unique h₂
    exact ⟨_, hf⟩

/-- So does a sequence committed by an optional part that is present. -/
theorem Runs.maybeThen_made (h : Runs rules (.unit (.maybeThen a b onMissing)) s (.hard failure) k tr)
    (hbefore : Runs rules (.unit a) s (.matched v) t tr₁) (hnext : Runs rules (.unit b) t .soft u tr₂) :
    ∃ tr₃, onMissing.run.run u = .ok ⟨failure, k, tr₃⟩ := by
  have hpresent := Runs.maybe_present hbefore
  cases h with
  | maybeThen_stop h₁ => nomatch (hpresent.unique h₁).1
  | maybeThen_hard h₁ h₂ =>
    obtain ⟨-, rfl, -⟩ := hpresent.unique h₁
    nomatch (hnext.unique h₂).1
  | maybeThen_escalate h₁ h₂ hf =>
    obtain ⟨-, rfl, -⟩ := hpresent.unique h₁
    obtain ⟨-, rfl, -⟩ := hnext.unique h₂
    exact ⟨_, hf⟩

/-- Within a grammar whose leaves leave the context unchanged when they fail softly, so do all units that it starts. -/
theorem Reaches.eq_of_soft [LawfulContext σ] {g h : Grammar} {through : Job → Nat → Prop}
    (hclean : ∀ f, g.Part rules (.apply f) → f.SoftlyClean σ) (hreach : Reaches rules through (.unit g) s (.unit h) s' before)
    (hb : h.Child rules b) (hrun : Runs rules (.unit b) t .soft u tr) : u = t := by
  refine hrun.eq_of_soft (fun f hf => ?_) rfl
  exact hclean f (hreach.holds nofun (.of_child hb hf.part))

/-- Let a unit `h`, started anywhere in a parse of `g`, fail hard and leave the context `k`. Each job around it that is come to from
it without passing a unit that catches fails in the same way, leaves the context `k`, and after the failure does nothing and
starts no job. Either all of the parse ends so, or there is a nearest recovering unit around; its primary unit ends so, and it
goes back to the context in which it was started and does there what its fallback does. And if all leaves of `g` leave the
context unchanged when they fail softly, a failure for want of a committed part is made on the context where the part
before it ended. -/
theorem hard_failure_escapes [LawfulContext σ] {g h : Grammar} {s₀ : σ} (hs : InBounds s₀)
    (hreach : Reaches rules (fun _ _ => True) (.unit g) s₀ (.unit h) s before)
    (hrun : Runs rules (.unit h) s (.hard failure) k tr) :
    (∀ {job job' : Job} {s₁ s₂ : σ} {n : Nat} {before₁ before₂ : Trace}, Invokes rules job s₁ n job' s₂ before₁ →
      job.catches n = false → Passes rules job' s₂ (.unit h) s before₂ →
        Runs rules job s₁ (.hard failure) k (before₁ ++ (before₂ ++ tr)) ∧
          ∀ {m : Nat} {job'' : Job} {s₃ : σ} {before₃ : Trace}, Invokes rules job s₁ m job'' s₃ before₃ → m ≤ n) ∧
    ((Passes rules (.unit g) s₀ (.unit h) s before ∧
        ∃ fuel, (g.eval rules fuel).run s₀ = .ok ⟨.hard failure, k, before ++ tr⟩) ∨
      ∃ a b u before₁ before₂, Reaches rules (fun _ _ => True) (.unit g) s₀ (.unit (.rescue a b)) u before₁ ∧
        Passes rules (.unit a) u (.unit h) s before₂ ∧ before = before₁ ++ (.opened u ++ before₂) ∧
        Runs rules (.unit a) u (.hard failure) k (before₂ ++ tr) ∧
        ∀ o w tr', Runs rules (.unit (.rescue a b)) u o w tr' ↔ ∃ tr₂, Runs rules (.unit b) u o w tr₂ ∧
          tr' = .opened u ++ (before₂ ++ tr ++ (.event (.recovering failure) ++ (.rewound u ++ tr₂)))) ∧
    ((∀ f, g.Part rules (.apply f) → f.SoftlyClean σ) →
      ∀ {a b : Grammar} {onMissing : Action Failure} {v : Value} {t u : σ} {tr₁ tr₂ : Trace},
        h = .seq a b onMissing ∨ h = .maybeThen a b onMissing → Runs rules (.unit a) s (.matched v) t tr₁ →
        Runs rules (.unit b) t .soft u tr₂ → u = t ∧ ∃ tr₃, onMissing.run.run t = .ok ⟨failure, k, tr₃⟩) := by
  refine ⟨?_, ?_, ?_⟩
  · intro job job' s₁ s₂ n before₁ before₂ hinv hn hpass
    have hinner := hpass.escapes hrun
    exact ⟨hinv.escapes hn hinner, hinv.last hn hinner⟩
  · rcases hreach.nearest with hpass | ⟨a, b, u, before₁, before₂, hrescue, hpass, hbefore⟩
    · exact .inl ⟨hpass, runs_iff_eval.1 (hpass.escapes hrun)⟩
    · have hprimary := hpass.escapes hrun
      have hback : Context.restore k (Context.backup u) = .ok u :=
        LawfulContext.restore_backup (hrescue.descends.inBounds hs) hprimary.descends
      exact .inr ⟨a, b, u, before₁, before₂, hrescue, hpass, hbefore, hprimary, fun o w tr' => runs_rescue_iff hprimary hback⟩
  · intro hclean a b onMissing v t u tr₁ tr₂ hh hhead htail
    rcases hh with rfl | rfl
    · obtain rfl := hreach.eq_of_soft hclean .seq_tail htail
      exact ⟨rfl, hrun.seq_made hhead htail⟩
    · obtain rfl := hreach.eq_of_soft hclean .maybeThen_next htail
      exact ⟨rfl, hrun.maybeThen_made hhead htail⟩

end

/-! ### A pair that is optional, and recovered from -/

/-- The letters `a` and `b`, committed; an item is taken before the failure for want of `b` is made. -/
def strictPair : Grammar :=
  .seq (.pop (· == .char 'a')) (.pop (· == .char 'b')) (.popFront fun _ => .done .unexpected)

/-- The pair if it is there; where it fails hard, any item. -/
def lenientPair : Grammar :=
  .rescue (.maybe strictPair) (.pop fun _ => true)

/-- The units that the pair is made of, alone and with what is around it. -/
inductive PairPart : Grammar → Prop where
  | item (pred : Value → Bool) : PairPart (.pop pred)
  | strict {a b : Grammar} (onMissing : Action Failure) : PairPart a → PairPart b → PairPart (.seq a b onMissing)
  | optional {a : Grammar} : PairPart a → PairPart (.maybe a)
  | recovering {a b : Grammar} : PairPart a → PairPart b → PairPart (.rescue a b)

theorem PairPart.of_part {g h : Grammar} (hg : PairPart g) (hgh : g.Part (fun _ => none) h) : PairPart h := by
  induction hgh with
  | refl => exact hg
  | tail _ hchild ih =>
    cases ih with
    | item pred => nomatch hchild
    | strict _ ha hb =>
      cases hchild
      · exact ha
      · exact hb
    | optional ha =>
      cases hchild
      exact ha
    | recovering ha hb =>
      cases hchild
      · exact ha
      · exact hb

/-- On `ac` the pair fails hard past both letters. The optional unit around it ends in the same way and starts nothing more, and
the failure was made past the `a`. -/
theorem strictPair_escapes :
    ∃ tr, Runs (fun _ => none) (.unit strictPair) (Text.ofString "ac") (.hard .unexpected) ⟨2, []⟩ tr ∧
      Runs (fun _ => none) (.unit (.maybe strictPair)) (Text.ofString "ac") (.hard .unexpected) ⟨2, []⟩
        (.opened (Text.ofString "ac") ++ (.nil ++ tr)) ∧
      (∀ m job s before, Invokes (fun _ => none) (.unit (.maybe strictPair)) (Text.ofString "ac") m job s before → m ≤ 0) ∧
      ∃ tr₃, (Action.popFront fun _ => .done .unexpected : Action Failure).run.run (⟨1, ['c']⟩ : Text) =
        .ok ⟨.unexpected, ⟨2, []⟩, tr₃⟩ := by
  have hreach : Reaches (fun _ => none) (fun _ _ => True) (.unit lenientPair) (Text.ofString "ac") (.unit strictPair)
      (Text.ofString "ac") _ := .invoke (.invoke .here .rescue_primary trivial) .maybe trivial
  have hyields : strictPair.Yields (fun _ => none) (Text.ofString "ac") (.hard .unexpected) ⟨2, []⟩ :=
    Grammar.yields_of_run 4 (by decide +kernel)
  have hyields_a : (Grammar.pop (· == .char 'a')).Yields (fun _ => none) (Text.ofString "ac") (.matched (.char 'a')) ⟨1, ['c']⟩ :=
    Grammar.yields_of_run 4 (by decide +kernel)
  have hyields_b : (Grammar.pop (· == .char 'b')).Yields (fun _ => none) (⟨1, ['c']⟩ : Text) .soft ⟨1, ['c']⟩ :=
    Grammar.yields_of_run 4 (by decide +kernel)
  obtain ⟨tr, hrun⟩ := Grammar.yields_iff_runs.1 hyields
  obtain ⟨_, hhead⟩ := Grammar.yields_iff_runs.1 hyields_a
  obtain ⟨_, htail⟩ := Grammar.yields_iff_runs.1 hyields_b
  have hclean : ∀ f, lenientPair.Part (fun _ => none) (.apply f) → f.SoftlyClean Text := by
    intro f hf
    have hpart : PairPart lenientPair := .recovering (.optional (.strict _ (.item _) (.item _))) (.item _)
    nomatch hpart.of_part hf
  obtain ⟨henclosing, -, hmade⟩ := hard_failure_escapes trivial hreach hrun
  obtain ⟨hmaybe, hlast⟩ := henclosing .maybe rfl .here
  obtain ⟨-, tr₃, hf⟩ := hmade hclean (.inl rfl) hhead htail
  exact ⟨tr, hrun, hmaybe, fun m job s before h => hlast h, tr₃, hf⟩

end Backtrack
