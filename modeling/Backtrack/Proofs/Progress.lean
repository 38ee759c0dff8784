import Backtrack.Proofs.Rewinds

/-!
# Progress

A unit may match and take nothing, and then a repetition of it, or a rule that comes back to itself behind it, never ends. Whether
a unit takes an item whenever it matches can be read off its form, once it is settled for the rules that it links to.
-/

namespace Backtrack

/-- On contexts of type `σ` the leaf matches only after it has taken an item: one of its calls takes one, made before the end of
the input. -/
def Action.TakesToMatch (σ : Type) [Context σ] (f : Action (Outcome Value)) : Prop :=
  ∀ (s t : σ) (v : Value) (tr : Trace), f.run.run s = .ok ⟨.matched v, t, tr⟩ →
    ∃ n, .popFront n ∈ tr.calls ∧ n < Context.inputLength s

/-- The unit takes an item whenever it matches, given that the rules in `assigned` do. A sequence does if one of its parts does, an
alternation if all of its parts do; an optional part does not count. -/
inductive Grammar.Consuming (σ : Type) [Context σ] (assigned : RuleId → Prop) : Grammar → Prop where
  | pop (pred : Value → Bool) : Consuming σ assigned (.pop pred)
  | apply {f : Action (Outcome Value)} : f.TakesToMatch σ → Consuming σ assigned (.apply f)
  | seq_head {a b : Grammar} {onMissing : Action Failure} :
      Consuming σ assigned a → Consuming σ assigned (.seq a b onMissing)
  | seq_tail {a b : Grammar} {onMissing : Action Failure} :
      Consuming σ assigned b → Consuming σ assigned (.seq a b onMissing)
  | bind_base {a : Grammar} {next : Value → Grammar} {held : List RuleId} :
      Consuming σ assigned a → Consuming σ assigned (.bind a next held)
  | bind_next {a : Grammar} {next : Value → Grammar} {held : List RuleId} :
      (∀ v, Consuming σ assigned (next v)) → Consuming σ assigned (.bind a next held)
  | choose {a b : Grammar} : Consuming σ assigned a → Consuming σ assigned b → Consuming σ assigned (.choose a b)
  | oneOf {gs : List Grammar} : (∀ g ∈ gs, Consuming σ assigned g) → Consuming σ assigned (.oneOf gs)
  | rescue {a b : Grammar} : Consuming σ assigned a → Consuming σ assigned b → Consuming σ assigned (.rescue a b)
  | maybeThen {a b : Grammar} {onMissing : Action Failure} :
      Consuming σ assigned b → Consuming σ assigned (.maybeThen a b onMissing)
  | oneOrMany {a : Grammar} : Consuming σ assigned a → Consuming σ assigned (.oneOrMany a)
  | map {f : Value → Value} {a : Grammar} : Consuming σ assigned a → Consuming σ assigned (.map f a)
  | transform {f : Value → Action (Except Failure Value)} {a : Grammar} :
      Consuming σ assigned a → Consuming σ assigned (.transform f a)
  | wrap {how : Wrapper} {a : Grammar} : Consuming σ assigned a → Consuming σ assigned (.wrap how a)
  | link {l : Link} : assigned l.rule → Consuming σ assigned (.link l)

/-- The rules in `assigned` that have a body have one that is consuming, on the same assumption. -/
def Rules.Assigned (σ : Type) [Context σ] (rules : Rules) (assigned : RuleId → Prop) : Prop :=
  ∀ id body, assigned id → rules id = some body → body.Consuming σ assigned

/-- The job, ending in this outcome, has to take an item: it ends in a match of consuming units, or in at least one turn of one. -/
def Job.MustTake (σ : Type) [Context σ] (assigned : RuleId → Prop) : Job → Outcome Value → Prop
  | .unit g, .matched _ => g.Consuming σ assigned
  | .candidates _ gs, .matched _ => ∀ g ∈ gs, g.Consuming σ assigned
  | .turns a, .matched (.list (_ :: _)) => a.Consuming σ assigned
  | _, _ => False

/-- Only a match has to take an item. -/
theorem Job.MustTake.matched {σ : Type} [Context σ] {assigned : RuleId → Prop} {job : Job} {o : Outcome Value}
    (h : job.MustTake σ assigned o) : ∃ v, o = .matched v := by
  cases o with
  | matched v => exact ⟨v, rfl⟩
  | soft | hard => cases job <;> nomatch h

section

variable {σ : Type} [Context σ] [LawfulContext σ]

/-- What is left when items are taken is no longer. -/
theorem Descends.length_le {s t : σ} (h : Descends s t) :
    (Context.remaining t).length ≤ (Context.remaining s).length :=
  h.remaining_suffix.length_le

/-- Taking an item where one is left leaves fewer. -/
theorem length_popFront_lt {s : σ} (h : Context.remaining s ≠ []) :
    (Context.remaining (Context.popFront s).2).length < (Context.remaining s).length := by
  rw [LawfulContext.remaining_popFront, List.length_tail]
  have := List.length_pos_iff.2 h
  omega

/-- An action that takes an item before the end of the input leaves fewer items. -/
theorem Action.shortens [CountingContext σ] {α : Type} {f : Action α} {s t : σ} {a : α} {tr : Trace} {n : Nat}
    (h : f.run.run s = .ok ⟨a, t, tr⟩) (hpop : .popFront n ∈ tr.calls) (hn : n < Context.inputLength s) :
    (Context.remaining t).length < (Context.remaining s).length := by
  induction f generalizing s tr with
  | done a =>
    obtain ⟨-, rfl, rfl⟩ := Engine.run_pure_eq_ok.1 h
    nomatch hpop
  | front k ih =>
    obtain ⟨item, s', tr₁, hcall, tr₂, hrest, rfl⟩ := Engine.run_bind_eq_ok.1 h
    cases hcall
    rw [Trace.calls_append] at hpop
    rcases List.mem_append.1 hpop with hfirst | hlater
    · nomatch List.mem_singleton.1 hfirst
    · exact ih _ hrest hlater hn
  | popFront k ih =>
    obtain ⟨item, s', tr₁, hcall, tr₂, hrest, rfl⟩ := Engine.run_bind_eq_ok.1 h
    cases hcall
    have hback : Descends s (Context.popFront s).2 := .pop .refl
    rw [Trace.calls_append, Trace.calls_call_events] at hpop
    rcases List.mem_append.1 hpop with hfirst | hlater
    · cases List.mem_singleton.1 hfirst
      have hleft : Context.remaining s ≠ [] := by
        intro hnil
        simp [Context.inputLength, hnil] at hn
      exact Nat.lt_of_le_of_lt (Action.descends hrest).length_le (length_popFront_lt hleft)
    · rw [← hback.inputLength_eq] at hn
      exact Nat.lt_of_lt_of_le (ih _ hrest hlater hn) hback.length_le
  | remaining k ih =>
    obtain ⟨item, s', tr₁, hcall, tr₂, hrest, rfl⟩ := Engine.run_bind_eq_ok.1 h
    cases hcall
    rw [Trace.nil_append] at hpop
    exact ih _ hrest hpop hn

/-- A run that has to take an item leaves fewer items. -/
theorem Runs.shortens [CountingContext σ] {rules : Rules} {assigned : RuleId → Prop} (hrules : rules.Assigned σ assigned)
    {job : Job} {s t : σ} {o : Outcome Value} {tr : Trace} (h : Runs rules job s o t tr) (hjob : job.MustTake σ assigned o) :
    (Context.remaining t).length < (Context.remaining s).length := by
  induction h with
  | pop h =>
    rcases Parser.run_pop_cases h with ⟨v, vs, hs, _, rfl, rfl⟩ | ⟨_, rfl, _⟩
    · exact length_popFront_lt (by simp [hs])
    · nomatch hjob
  | apply h =>
    obtain ⟨v, rfl⟩ := hjob.matched
    cases hjob with
    | apply hf =>
      obtain ⟨n, hpop, hn⟩ := hf _ _ v _ h
      exact Action.shortens h hpop hn
  | seq_match h₁ h₂ ih₁ ih₂ =>
    cases hjob with
    | seq_head ha => exact Nat.lt_of_le_of_lt h₂.descends.length_le (ih₁ ha)
    | seq_tail hb => exact Nat.lt_of_lt_of_le (ih₂ hb) h₁.descends.length_le
  | bind_go h₁ h₂ _ ih₁ ih₂ =>
    obtain ⟨w, rfl⟩ := hjob.matched
    cases hjob with
    | bind_base ha => exact Nat.lt_of_le_of_lt h₂.descends.length_le (ih₁ ha)
    | bind_next hnext => exact Nat.lt_of_lt_of_le (ih₂ (hnext _)) h₁.descends.length_le
  | choose_first _ _ ih =>
    obtain ⟨v, rfl⟩ := hjob.matched
    cases hjob with
    | choose ha hb => exact ih ha
  | choose_second h₁ hr _ _ ih =>
    obtain ⟨v, rfl⟩ := hjob.matched
    obtain rfl := LawfulContext.eq_of_restore h₁.descends hr
    cases hjob with
    | choose ha hb => exact ih hb
  | oneOf _ ih =>
    obtain ⟨v, rfl⟩ := hjob.matched
    cases hjob with
    | oneOf hgs => exact ih hgs
  | candidates_here _ _ ih =>
    obtain ⟨v, rfl⟩ := hjob.matched
    exact ih (hjob _ List.mem_cons_self)
  | candidates_next h₁ hr _ _ ih =>
    obtain ⟨v, rfl⟩ := hjob.matched
    obtain rfl := LawfulContext.eq_of_restore h₁.descends hr
    exact ih fun g hg => hjob g (List.mem_cons_of_mem _ hg)
  | rescue_primary _ ih =>
    cases hjob with
    | rescue ha hb => exact ih ha
  | rescue_missed h₁ hr _ _ ih | rescue_recover h₁ hr _ _ ih =>
    obtain ⟨v, rfl⟩ := hjob.matched
    obtain rfl := LawfulContext.eq_of_restore h₁.descends hr
    cases hjob with
    | rescue ha hb => exact ih hb
  | maybeThen_match h₁ _ _ ih =>
    cases hjob with
    | maybeThen hb => exact Nat.lt_of_lt_of_le (ih hb) h₁.descends.length_le
  | turns_more _ h₂ ih _ => exact Nat.lt_of_le_of_lt h₂.descends.length_le (ih hjob)
  | oneOrMany_some _ ih =>
    cases hjob with
    | oneOrMany ha => exact ih ha
  | map_match _ ih =>
    cases hjob with
    | map ha => exact ih ha
  | transform_match _ hf ih =>
    cases hjob with
    | transform ha => exact Nat.lt_of_le_of_lt (Action.descends hf).length_le (ih ha)
  | wrap _ ih =>
    obtain ⟨v, rfl⟩ := hjob.matched
    cases hjob with
    | wrap ha => exact ih ha
  | link hbody _ ih =>
    obtain ⟨v, rfl⟩ := hjob.matched
    cases hjob with
    | link hl => exact ih (hrules _ _ hl hbody)
  | seq_stop _ ho | bind_stop _ ho | map_stop _ ho | transform_stop _ ho =>
    obtain ⟨v, rfl⟩ := hjob.matched
    nomatch ho
  | _ => nomatch hjob

end

end Backtrack
