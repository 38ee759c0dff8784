import Backtrack.Proofs.Termination
import Backtrack.Proofs.Rewinds
import Backtrack.Rule.Store

/-!
# Inspected items

A parse looks at items and takes them, in the attempts that it gives up as well as in the one that succeeds; looking where none is
left counts too. What lies beyond the furthest place where it does so cannot matter: on any other input that agrees up to there it
does the same, call by call.
-/

namespace Backtrack

open LawfulContext (InBounds)

/-! ## Places that are inspected -/

namespace Trace

/-- The numbers of items consumed where the first item is looked at or taken, in order. -/
def inspected (tr : Trace) : List Nat :=
  tr.calls.filterMap fun
    | .front n | .popFront n => some n
    | .backup _ | .restore _ => none

/-- What two runs inspect stands one after the other. -/
@[simp] theorem inspected_append (tr tr' : Trace) : (tr ++ tr').inspected = tr.inspected ++ tr'.inspected := by
  simp [inspected]

end Trace

section

variable {σ : Type} [Context σ]

/-- The job, started in the context, comes to inspect the input with `n` items consumed, whether it ends or not: some job that it
comes to, or it itself, ends and does so. -/
def Inspects (rules : Rules) (job : Job) (s : σ) (n : Nat) : Prop :=
  ∃ job' s' before o t tr, Reaches rules (fun _ _ => True) job s job' s' before ∧ Runs rules job' s' o t tr ∧ n ∈ tr.inspected

/-- The run of the unit from the context, whether it ends or not, inspects the input with `n` items consumed. -/
def Grammar.Inspects (rules : Rules) (g : Grammar) (s : σ) (n : Nat) : Prop :=
  Backtrack.Inspects rules (.unit g) s n

variable {rules : Rules} {job job' : Job} {s s' t : σ} {n : Nat} {o : Outcome Value} {before tr : Trace}

/-- What a job inspects, the one that starts it inspects. -/
theorem Inspects.of_invokes {k : Nat} (h : Inspects rules job' s' n) (hinv : Invokes rules job s k job' s' before) :
    Inspects rules job s n := by
  obtain ⟨job₁, s₁, before₁, o, t, tr, hreach, hrun, hn⟩ := h
  exact ⟨job₁, s₁, before ++ before₁, o, t, tr, hreach.of_invokes hinv trivial, hrun, hn⟩

/-- A run that ends inspects what its trace says. -/
theorem Runs.inspects_iff (h : Runs rules job s o t tr) : Inspects rules job s n ↔ n ∈ tr.inspected := by
  constructor
  · rintro ⟨job', s', before, o', t', tr', hreach, hrun, hn⟩
    obtain ⟨o'', t'', tr'', after, hrun', rfl⟩ := h.of_reaches hreach
    obtain ⟨-, -, rfl⟩ := hrun.unique hrun'
    simp [hn]
  · intro hn
    exact ⟨job, s, .nil, o, t, tr, .here, h, hn⟩

section

variable {a b : Grammar} {onMissing : Action Failure} {u w : σ} {v : Value} {failure : Failure} {tr₁ tr₂ tr₃ : Trace}

/-- A sequence inspects what the action inspects that makes the failure for a missing tail. -/
theorem Runs.inspects_seq (h₁ : Runs rules (.unit a) s (.matched v) t tr₁) (h₂ : Runs rules (.unit b) t .soft u tr₂)
    (hf : onMissing.run.run u = .ok ⟨failure, w, tr₃⟩) (hn : n ∈ tr₃.inspected) :
    Inspects rules (.unit (.seq a b onMissing)) s n :=
  (Runs.seq_escalate h₁ h₂ hf).inspects_iff.2 (by simp [hn])

/-- An optional part with the unit after it inspects what the action inspects that makes the failure. -/
theorem Runs.inspects_maybeThen (h₁ : Runs rules (.unit (.maybe a)) s (.matched (.opt (some v))) t tr₁)
    (h₂ : Runs rules (.unit b) t .soft u tr₂) (hf : onMissing.run.run u = .ok ⟨failure, w, tr₃⟩) (hn : n ∈ tr₃.inspected) :
    Inspects rules (.unit (.maybeThen a b onMissing)) s n :=
  (Runs.maybeThen_escalate h₁ h₂ hf).inspects_iff.2 (by simp [hn])

/-- What the action on a value inspects, the whole inspects. -/
theorem Runs.inspects_transform {f : Value → Action (Except Failure Value)} {x : Except Failure Value}
    (h : Runs rules (.unit a) s (.matched v) t tr₁) (hf : (f v).run.run t = .ok ⟨x, u, tr₂⟩) (hn : n ∈ tr₂.inspected) :
    Inspects rules (.unit (.transform f a)) s n := by
  cases x with
  | ok y => exact (Runs.transform_match h hf).inspects_iff.2 (by simp [hn])
  | error failure => exact (Runs.transform_hard h hf).inspects_iff.2 (by simp [hn])

end

end

/-! ## Actions that see the input through calls only -/

/-- What an action does to the input: it looks at the first item, or takes it. -/
inductive Touch where
  | front | popFront

namespace Action

variable {α : Type}

/-- What the action does to a list of items, in order, and its result. -/
def onItems : Action α → List Value → List Touch × α
  | .done a, _ => ([], a)
  | .front k, items => ((k items.head?).onItems items).map (.front :: ·) id
  | .popFront k, items => ((k items.head?).onItems items.tail).map (.popFront :: ·) id
  | .remaining k, items => (k items).onItems items

/-- The action looks at the first item and takes it, and has no other view of the input: where it is given the rest of the input,
this only bounds the turns of a loop, and more turns would not change what it does. -/
inductive CallsOnly : Action α → Prop where
  | done (result : α) : CallsOnly (.done result)
  | front {next : Option Value → Action α} : (∀ item, CallsOnly (next item)) → CallsOnly (.front next)
  | popFront {next : Option Value → Action α} : (∀ item, CallsOnly (next item)) → CallsOnly (.popFront next)
  | loop {turns : List Value → Nat} {next : Nat → Action α} : (∀ n, CallsOnly (next n)) →
      (∀ items n, turns items ≤ n → (next n).onItems items = (next (turns items)).onItems items) →
      CallsOnly (.remaining fun items => next (turns items))

end Action

namespace Grammar

/-- The actions that the unit itself runs see the input through calls only. -/
def ActsByCalls : Grammar → Prop
  | .apply f => f.CallsOnly
  | .seq _ _ onMissing | .maybeThen _ _ onMissing => onMissing.CallsOnly
  | .transform f _ => ∀ v, (f v).CallsOnly
  | _ => True

/-- All actions of the grammar see the input through calls only, also those in the bodies of rules and in the units that values
select. -/
def CallsOnly (rules : Rules) (g : Grammar) : Prop :=
  ∀ h, g.Part rules h → h.ActsByCalls

variable {rules : Rules} {g : Grammar}

/-- A unit's actions are its own and those of its parts. -/
theorem CallsOnly.of_children (hown : g.ActsByCalls) (hparts : ∀ h, g.Child rules h → h.CallsOnly rules) : g.CallsOnly rules := by
  intro k hk
  rcases Relation.ReflTransGen.cases_head hk with rfl | ⟨h, hchild, hk⟩
  · exact hown
  · exact hparts h hchild k hk

end Grammar

/-- All actions that the job can come to see the input through calls only. -/
def Job.CallsOnly (rules : Rules) (job : Job) : Prop :=
  ∀ h, job.Holds rules h → h.ActsByCalls

namespace Job.CallsOnly

variable {rules : Rules} {job job' : Job}

/-- The actions of a unit are among those that it can come to. -/
theorem actsByCalls {g : Grammar} (h : (Job.unit g).CallsOnly rules) : g.ActsByCalls :=
  h g .refl

/-- So do those of the jobs that it starts. -/
theorem of_invokes {σ : Type} [Context σ] {s s' : σ} {n : Nat} {before : Trace} (h : job.CallsOnly rules)
    (hinv : Invokes rules job s n job' s' before) : job'.CallsOnly rules := by
  intro k hk
  by_cases hmaybe : ∃ a, k = .maybe a
  · obtain ⟨a, rfl⟩ := hmaybe
    trivial
  · exact h k (hinv.holds (fun a ha => hmaybe ⟨a, ha⟩) hk)

end Job.CallsOnly

/-! ## Inputs that agree up to a bound -/

/-- A context that reports of taking an item no more than the place and the item tell. -/
class LocalContext (σ : Type) [Context σ] : Prop where
  popEvents_eq {s t : σ} : Context.consumed s = Context.consumed t → Context.front s = Context.front t →
    Context.popEvents s = Context.popEvents t

instance {ι : Type} [Item ι] : LocalContext (Suffix ι) where
  popEvents_eq _ _ := rfl

instance {ι : Type} [Item ι] : LocalContext (Cursor ι) where
  popEvents_eq {c d} hpos hfront := by
    simp only [Context.consumed, Context.front, Context.popEvents, Cursor.advanceEvents] at *
    rw [hpos]
    cases hc : c.peek <;> cases hd : d.peek <;> simp_all

section

variable {σ : Type} [Context σ]

/-- The contexts `s` and `t` are at the same place, and the inputs agree from there up to the first `m` items. -/
structure Near (m : Nat) (s t : σ) : Prop where
  consumed : Context.consumed s = Context.consumed t
  items : (Context.remaining s).take (m - Context.consumed s) = (Context.remaining t).take (m - Context.consumed s)

namespace Near

variable {m : Nat} {s t : σ}

theorem symm (h : Near m s t) : Near m t s :=
  ⟨h.consumed.symm, by rw [← h.consumed]; exact h.items.symm⟩

/-- Contexts near each other remember the same place. -/
theorem opened (h : Near m s t) : Trace.opened s = Trace.opened t := by
  rw [Trace.opened, Trace.opened, h.consumed]

/-- Contexts near each other record the same return. -/
theorem rewound (h : Near m s t) : Trace.rewound s = Trace.rewound t := by
  rw [Trace.rewound, Trace.rewound, h.consumed]

/-- Below the bound the first item is the same, or there is none in either input. -/
theorem head?_eq (h : Near m s t) (hlt : Context.consumed s < m) :
    (Context.remaining s).head? = (Context.remaining t).head? := by
  have hpos : m - Context.consumed s ≠ 0 := by omega
  have hhead := congrArg List.head? h.items
  rwa [List.head?_take, List.head?_take, if_neg hpos, if_neg hpos] at hhead

variable [LawfulContext σ]

/-- Below the bound both show the same first item. -/
theorem front_eq (h : Near m s t) (hlt : Context.consumed s < m) : Context.front s = Context.front t := by
  rw [LawfulContext.front_eq, LawfulContext.front_eq, h.head?_eq hlt]

/-- Below the bound both hand out the same first item. -/
theorem popFront_fst (h : Near m s t) (hlt : Context.consumed s < m) : (Context.popFront s).1 = (Context.popFront t).1 := by
  rw [LawfulContext.popFront_fst, LawfulContext.popFront_fst, h.head?_eq hlt]

/-- Below the bound, taking an item leads both on to the same place. -/
theorem popFront [CountingContext σ] (h : Near m s t) (hlt : Context.consumed s < m) :
    Near m (Context.popFront s).2 (Context.popFront t).2 := by
  have hcount := CountingContext.consumed_popFront s
  have hcount' := CountingContext.consumed_popFront t
  have hhead := h.head?_eq hlt
  have hitems := h.items
  rw [LawfulContext.remaining_popFront] at hcount hcount'
  obtain ⟨k, hk⟩ : ∃ k, m - Context.consumed s = k + 1 := ⟨m - Context.consumed s - 1, by omega⟩
  rw [hk] at hitems
  cases hs : Context.remaining s with
  | nil =>
    have ht : Context.remaining t = [] := by simpa [hs] using hhead.symm
    rw [hs, List.tail_nil] at hcount
    rw [ht, List.tail_nil] at hcount'
    refine ⟨by have := h.consumed; omega, ?_⟩
    simp only [LawfulContext.remaining_popFront, hs, ht]
  | cons v vs =>
    obtain ⟨ws, ht⟩ : ∃ ws, Context.remaining t = v :: ws := List.head?_eq_some_iff.1 (by rw [← hhead, hs]; rfl)
    rw [hs, List.tail_cons, List.length_cons] at hcount
    rw [ht, List.tail_cons, List.length_cons] at hcount'
    rw [hs, ht, List.take_succ_cons, List.take_succ_cons] at hitems
    refine ⟨by have := h.consumed; omega, ?_⟩
    rw [LawfulContext.remaining_popFront, LawfulContext.remaining_popFront, hs, ht, List.tail_cons, List.tail_cons,
      show m - Context.consumed (Context.popFront s).2 = k by omega]
    exact (List.cons.inj hitems).2

end Near

end

/-! ## What an action does on a context -/

/-- Looks at items and takes them, whatever they are. -/
def Touch.replay {σ : Type} [Context σ] : List Touch → Engine σ Unit
  | [] => pure ()
  | .front :: touches => do
    let _ ← Engine.front
    replay touches
  | .popFront :: touches => do
    let _ ← Engine.popFront
    replay touches

namespace Action

variable {σ : Type} [Context σ] {α : Type}

/-- The view of the rest of the input makes no call on the context. -/
theorem run_remaining (k : List Value → Action α) (s : σ) :
    (Action.remaining k).run.run s = (k (Context.remaining s)).run.run s := by
  have hview : (Engine.remaining : Engine σ _).run s = .ok ⟨Context.remaining s, s, .nil⟩ := rfl
  simp only [run, Engine.run_bind, hview]
  cases (k (Context.remaining s)).run.run s with
  | error reason => rfl
  | ok r => simp

variable [LawfulContext σ]

/-- On a context an action does what it does to the items that are left. -/
theorem run_eq_replay (f : Action α) (s : σ) :
    f.run.run s =
      (do Touch.replay (f.onItems (Context.remaining s)).1; return (f.onItems (Context.remaining s)).2 : Engine σ α).run s := by
  induction f generalizing s with
  | done a => rfl
  | front k ih =>
    simp only [run, onItems, Prod.map, Touch.replay, bind_assoc, Engine.run_bind, Engine.run_front, LawfulContext.front_eq, ih]
    rfl
  | popFront k ih =>
    simp only [run, onItems, Prod.map, Touch.replay, bind_assoc, Engine.run_bind, Engine.run_popFront,
      LawfulContext.popFront_fst, ih, LawfulContext.remaining_popFront]
    rfl
  | remaining k ih =>
    rw [onItems, ← ih]
    exact run_remaining k s

/-- Actions that do the same to the items that are left run alike. -/
theorem run_congr {f g : Action α} {s : σ} (h : f.onItems (Context.remaining s) = g.onItems (Context.remaining s)) :
    f.run.run s = g.run.run s := by
  rw [run_eq_replay, h, ← run_eq_replay]

end Action

/-! ## The leaves -/

/-- The predicate leaf looks and takes, and does no more. -/
theorem Action.callsOnly_takeIf (pred : Value → Bool) : (Action.takeIf pred).CallsOnly := by
  refine .front fun item => ?_
  cases item with
  | none => exact .done _
  | some v =>
    by_cases hv : pred v = true
    · simp only [hv, if_true]
      exact .popFront fun item => .done _
    · simp only [hv]
      exact .done _

section

variable {σ : Type} [Context σ] [LawfulContext σ] [CountingContext σ] [LocalContext σ] {α : Type} {f : Action α} {m : Nat}
  {s s' t : σ} {a : α} {tr : Trace}

/-- An action whose inspections stay below the bound does the same on the other context. -/
theorem Action.CallsOnly.near (hf : f.CallsOnly) (hnear : Near m s t) (h : f.run.run s = .ok ⟨a, s', tr⟩)
    (hseen : ∀ n ∈ tr.inspected, n < m) : ∃ t', f.run.run t = .ok ⟨a, t', tr⟩ ∧ Near m s' t' := by
  induction hf generalizing s t tr with
  | done b =>
    obtain ⟨rfl, rfl, rfl⟩ := Engine.run_pure_eq_ok.1 h
    exact ⟨t, rfl, hnear⟩
  | front _ ih =>
    obtain ⟨item, s₁, tr₁, hcall, tr₂, hrest, rfl⟩ := Engine.run_bind_eq_ok.1 h
    cases hcall
    rw [Trace.inspected_append, List.forall_mem_append] at hseen
    have hlt : Context.consumed s < m := hseen.1 _ List.mem_cons_self
    obtain ⟨t', hrun, hnear'⟩ := ih _ hnear hrest hseen.2
    refine ⟨t', Engine.run_bind_eq_ok.2 ⟨_, _, _, Engine.run_front t, tr₂, ?_, ?_⟩, hnear'⟩
    · rw [← hnear.front_eq hlt]
      exact hrun
    · rw [← hnear.consumed]
  | popFront _ ih =>
    obtain ⟨item, s₁, tr₁, hcall, tr₂, hrest, rfl⟩ := Engine.run_bind_eq_ok.1 h
    cases hcall
    rw [Trace.inspected_append, List.forall_mem_append] at hseen
    have hlt : Context.consumed s < m := by
      refine hseen.1 _ ?_
      rw [Trace.inspected, Trace.calls_call_events]
      exact List.mem_cons_self
    obtain ⟨t', hrun, hnear'⟩ := ih _ (hnear.popFront hlt) hrest hseen.2
    refine ⟨t', Engine.run_bind_eq_ok.2 ⟨_, _, _, Engine.run_popFront t, tr₂, ?_, ?_⟩, hnear'⟩
    · rw [← hnear.popFront_fst hlt]
      exact hrun
    · rw [← hnear.consumed, LocalContext.popEvents_eq hnear.consumed (hnear.front_eq hlt)]
  | @loop turns next _ hsame ih =>
    obtain ⟨n, hs, ht⟩ : ∃ n, turns (Context.remaining s) ≤ n ∧ turns (Context.remaining t) ≤ n :=
      ⟨max _ _, Nat.le_max_left _ _, Nat.le_max_right _ _⟩
    rw [Action.run_remaining, ← Action.run_congr (hsame _ n hs)] at h
    obtain ⟨t', hrun, hnear'⟩ := ih n hnear h hseen
    rw [Action.run_congr (hsame _ n ht)] at hrun
    exact ⟨t', (Action.run_remaining _ t).trans hrun, hnear'⟩

end

/-! ## Two runs side by side -/

/-- The job can be run from `s` and from `t` side by side: the contexts are near each other, and from one of them the job inspects
nothing at the bound or beyond. -/
structure Beside {σ : Type} [Context σ] [LawfulContext σ] (rules : Rules) (m : Nat) (job : Job) (s t : σ) : Prop where
  callsOnly : job.CallsOnly rules
  inBounds : InBounds t
  near : Near m s t
  /-- An end of the run may be known from either context, and the bound from one of the two. -/
  seen : (∀ n, Inspects rules job s n → n < m) ∨ ∀ n, Inspects rules job t n → n < m

section

variable {σ : Type} [Context σ] [LawfulContext σ] {rules : Rules} {m : Nat} {job job' : Job} {s s' t t' : σ}

namespace Beside

/-- The jobs started from near contexts are side by side again. -/
theorem invoke {n n' : Nat} {before before' : Trace} (h : Beside rules m job s t) (hs : Invokes rules job s n job' s' before)
    (ht : Invokes rules job t n' job' t' before') (hnear : Near m s' t') : Beside rules m job' s' t' where
  callsOnly := h.callsOnly.of_invokes hs
  inBounds := ht.descends.inBounds h.inBounds
  near := hnear
  seen := h.seen.imp (fun hseen n hn => hseen n (hn.of_invokes hs)) fun hseen n hn => hseen n (hn.of_invokes ht)

/-- Going back leads to the context of the other run that was remembered. -/
theorem restore (h : Beside rules m job s t) (hdesc : Descends t t') : Context.restore t' (Context.backup t) = .ok t :=
  LawfulContext.restore_backup h.inBounds hdesc

variable [CountingContext σ] [LocalContext σ]

/-- An action that is run on the way does the same from both contexts, since either run of the job has its inspections. -/
theorem action {α : Type} {f : Action α} {s₁ s₂ t₁ : σ} {a : α} {tr : Trace} (h : Beside rules m job s t)
    (hnear : Near m s₁ t₁) (hf : f.CallsOnly) (hrun : f.run.run s₁ = .ok ⟨a, s₂, tr⟩)
    (hs : ∀ n ∈ tr.inspected, Inspects rules job s n)
    (ht : ∀ b t₂ tr', f.run.run t₁ = .ok ⟨b, t₂, tr'⟩ → ∀ n ∈ tr'.inspected, Inspects rules job t n) :
    ∃ t₂, f.run.run t₁ = .ok ⟨a, t₂, tr⟩ ∧ Near m s₂ t₂ := by
  rcases h.seen with hseen | hseen
  · exact hf.near hnear hrun fun n hn => hseen n (hs n hn)
  · obtain ⟨b, t₂, tr', hrun'⟩ := f.returns t₁
    obtain ⟨s₃, hrun'', hnear'⟩ := hf.near hnear.symm hrun' fun n hn => hseen n (ht b t₂ tr' hrun' n hn)
    cases hrun.symm.trans hrun''
    exact ⟨t₂, hrun', hnear'.symm⟩

end Beside

/-- From every context beside its start the run is matched by a run with the same outcome and the same trace, and the two end near
each other. -/
def Mirrored (rules : Rules) (m : Nat) (job : Job) (s : σ) (o : Outcome Value) (s' : σ) (tr : Trace) : Prop :=
  ∀ ⦃t : σ⦄, Beside rules m job s t → ∃ t', Runs rules job t o t' tr ∧ Near m s' t'

namespace Mirrored

variable {job₁ job₂ : Job} {u : σ} {o o₁ o₂ : Outcome Value} {tr tr₁ tr₂ tr' : Trace} {n₁ n₂ : Nat} {before₁ before₂ : σ → Trace}

/-- A job that starts another one where it was started itself. -/
theorem one (h : Mirrored rules m job₁ s o₁ s' tr₁) (hinv : ∀ {v : σ}, Invokes rules job v n₁ job₁ v (before₁ v))
    (hrule : ∀ {t t' : σ}, Runs rules job₁ t o₁ t' tr₁ → Runs rules job t o t' tr) : Mirrored rules m job s o s' tr := by
  intro t hb
  obtain ⟨t', hrun, hnear⟩ := h (hb.invoke hinv hinv hb.near)
  exact ⟨t', hrule hrun, hnear⟩

/-- A job that remembers the place and starts another one. -/
theorem one_opened (h : Mirrored rules m job₁ s o₁ s' tr₁) (hinv : ∀ {v : σ}, Invokes rules job v n₁ job₁ v (before₁ v))
    (hrule : ∀ {t t' : σ}, Runs rules job₁ t o₁ t' tr₁ → Runs rules job t o t' (.opened t ++ tr)) :
    Mirrored rules m job s o s' (.opened s ++ tr) := by
  intro t hb
  obtain ⟨t', hrun, hnear⟩ := h (hb.invoke hinv hinv hb.near)
  rw [hb.near.opened]
  exact ⟨t', hrule hrun, hnear⟩

/-- A job that starts another one, and then a second one where the first ended. -/
theorem two (h₁ : Mirrored rules m job₁ s o₁ u tr₁) (h₂ : Mirrored rules m job₂ u o₂ s' tr₂) (hrun₁ : Runs rules job₁ s o₁ u tr₁)
    (hfirst : ∀ {v : σ}, Invokes rules job v n₁ job₁ v (before₁ v))
    (hsecond : ∀ {v w : σ}, Runs rules job₁ v o₁ w tr₁ → Invokes rules job v n₂ job₂ w (before₂ v))
    (hrule : ∀ {t t₁ t₂ : σ}, Runs rules job₁ t o₁ t₁ tr₁ → Runs rules job₂ t₁ o₂ t₂ tr₂ → Runs rules job t o t₂ tr) :
    Mirrored rules m job s o s' tr := by
  intro t hb
  obtain ⟨t₁, hrun, hnear⟩ := h₁ (hb.invoke hfirst hfirst hb.near)
  obtain ⟨t₂, hrun', hnear'⟩ := h₂ (hb.invoke (hsecond hrun₁) (hsecond hrun) hnear)
  exact ⟨t₂, hrule hrun hrun', hnear'⟩

/-- The same of a job that remembers the place first. -/
theorem two_opened (h₁ : Mirrored rules m job₁ s o₁ u tr₁) (h₂ : Mirrored rules m job₂ u o₂ s' tr₂)
    (hrun₁ : Runs rules job₁ s o₁ u tr₁) (hfirst : ∀ {v : σ}, Invokes rules job v n₁ job₁ v (before₁ v))
    (hsecond : ∀ {v w : σ}, Runs rules job₁ v o₁ w tr₁ → Invokes rules job v n₂ job₂ w (before₂ v))
    (hrule : ∀ {t t₁ t₂ : σ}, Runs rules job₁ t o₁ t₁ tr₁ → Runs rules job₂ t₁ o₂ t₂ tr₂ →
      Runs rules job t o t₂ (.opened t ++ tr)) : Mirrored rules m job s o s' (.opened s ++ tr) := by
  intro t hb
  obtain ⟨t₁, hrun, hnear⟩ := h₁ (hb.invoke hfirst hfirst hb.near)
  obtain ⟨t₂, hrun', hnear'⟩ := h₂ (hb.invoke (hsecond hrun₁) (hsecond hrun) hnear)
  rw [hb.near.opened]
  exact ⟨t₂, hrule hrun hrun', hnear'⟩

/-- A job that goes back after the one that it starts. -/
theorem undone (h : Mirrored rules m job₁ s o₁ u tr₁) (hinv : ∀ {v : σ}, Invokes rules job v n₁ job₁ v (before₁ v))
    (hrule : ∀ {t t₁ : σ}, Runs rules job₁ t o₁ t₁ tr₁ → Context.restore t₁ (Context.backup t) = .ok t →
      Runs rules job t o t (.opened t ++ (tr₁ ++ .rewound t))) :
    Mirrored rules m job s o s (.opened s ++ (tr₁ ++ .rewound s)) := by
  intro t hb
  obtain ⟨t₁, hrun, -⟩ := h (hb.invoke hinv hinv hb.near)
  rw [hb.near.opened, hb.near.rewound]
  exact ⟨t, hrule hrun (hb.restore hrun.descends), hb.near⟩

/-- A job that goes back after the one that it starts, and starts a second one. -/
theorem back (h₁ : Mirrored rules m job₁ s o₁ u tr₁) (h₂ : Mirrored rules m job₂ s o₂ s' tr₂) (hrun₁ : Runs rules job₁ s o₁ u tr₁)
    (hr : Context.restore u (Context.backup s) = .ok s) (hfirst : ∀ {v : σ}, Invokes rules job v n₁ job₁ v (before₁ v))
    (hsecond : ∀ {v w : σ}, Runs rules job₁ v o₁ w tr₁ → Context.restore w (Context.backup v) = .ok v →
      Invokes rules job v n₂ job₂ v (before₂ v))
    (hrule : ∀ {t t₁ t₂ : σ}, Runs rules job₁ t o₁ t₁ tr₁ → Context.restore t₁ (Context.backup t) = .ok t →
      Runs rules job₂ t o₂ t₂ tr₂ → Runs rules job t o t₂ (.opened t ++ (tr₁ ++ (tr' ++ (.rewound t ++ tr₂))))) :
    Mirrored rules m job s o s' (.opened s ++ (tr₁ ++ (tr' ++ (.rewound s ++ tr₂)))) := by
  intro t hb
  obtain ⟨t₁, hrun, -⟩ := h₁ (hb.invoke hfirst hfirst hb.near)
  have hr' := hb.restore hrun.descends
  obtain ⟨t₂, hrun', hnear⟩ := h₂ (hb.invoke (hsecond hrun₁ hr) (hsecond hrun hr') hb.near)
  rw [hb.near.opened, hb.near.rewound]
  exact ⟨t₂, hrule hrun hr' hrun', hnear⟩

/-- A sequence whose selected part does not match, so that what the base took is given back. -/
theorem bind_back {a : Grammar} {next : Value → Grammar} {held : List RuleId} {v : Value} {w : σ}
    (h₁ : Mirrored rules m (.unit a) s (.matched v) u tr₁) (h₂ : Mirrored rules m (.unit (next v)) u .soft w tr₂)
    (hrun₁ : Runs rules (.unit a) s (.matched v) u tr₁) :
    Mirrored rules m (.unit (.bind a next held)) s .soft s (.opened s ++ (tr₁ ++ (tr₂ ++ .rewound s))) := by
  intro t hb
  obtain ⟨t₁, hrun, hnear⟩ := h₁ (hb.invoke .bind_base .bind_base hb.near)
  obtain ⟨t₂, hrun', -⟩ := h₂ (hb.invoke (.bind_next hrun₁) (.bind_next hrun) hnear)
  rw [hb.near.opened, hb.near.rewound]
  exact ⟨t, .bind_back hrun hrun' (hb.restore (hrun.descends.trans hrun'.descends)), hb.near⟩

variable [CountingContext σ] [LocalContext σ] {a b : Grammar} {v : Value} {tr₃ : Trace}

/-- A leaf that is an action. -/
theorem leaf {f : Action (Outcome Value)} (hf : job.CallsOnly rules → f.CallsOnly)
    (hleaf : ∀ {v w : σ} {o : Outcome Value} {tr : Trace}, f.run.run v = .ok ⟨o, w, tr⟩ → Runs rules job v o w tr)
    (hrun : f.run.run s = .ok ⟨o, s', tr⟩) : Mirrored rules m job s o s' tr := by
  intro t hb
  obtain ⟨t', hrun', hnear⟩ := hb.action hb.near (hf hb.callsOnly) hrun (fun n hn => (hleaf hrun).inspects_iff.2 hn)
    fun b t₂ tr' hrun' n hn => (hleaf hrun').inspects_iff.2 hn
  exact ⟨t', hleaf hrun', hnear⟩

/-- A sequence with a missing tail, for which a failure is made. -/
theorem seq_escalate {onMissing : Action Failure} {failure : Failure} {w : σ}
    (h₁ : Mirrored rules m (.unit a) s (.matched v) u tr₁) (h₂ : Mirrored rules m (.unit b) u .soft w tr₂)
    (hrun₁ : Runs rules (.unit a) s (.matched v) u tr₁) (hrun₂ : Runs rules (.unit b) u .soft w tr₂)
    (hf : onMissing.run.run w = .ok ⟨failure, s', tr₃⟩) :
    Mirrored rules m (.unit (.seq a b onMissing)) s (.hard failure) s'
      (tr₁ ++ (tr₂ ++ (tr₃ ++ .event (.tailMissed failure)))) := by
  intro t hb
  obtain ⟨t₁, hrun, hnear⟩ := h₁ (hb.invoke .seq_head .seq_head hb.near)
  obtain ⟨t₂, hrun', hnear'⟩ := h₂ (hb.invoke (.seq_tail hrun₁) (.seq_tail hrun) hnear)
  obtain ⟨t₃, hf', hnear''⟩ := hb.action hnear' hb.callsOnly.actsByCalls hf (fun _ => hrun₁.inspects_seq hrun₂ hf)
    fun _ _ _ hf' _ => hrun.inspects_seq hrun' hf'
  exact ⟨t₃, .seq_escalate hrun hrun' hf', hnear''⟩

/-- A present part with a missing second one, for which a failure is made. -/
theorem maybeThen_escalate {onMissing : Action Failure} {failure : Failure} {w : σ}
    (h₁ : Mirrored rules m (.unit (.maybe a)) s (.matched (.opt (some v))) u tr₁) (h₂ : Mirrored rules m (.unit b) u .soft w tr₂)
    (hrun₁ : Runs rules (.unit (.maybe a)) s (.matched (.opt (some v))) u tr₁) (hrun₂ : Runs rules (.unit b) u .soft w tr₂)
    (hf : onMissing.run.run w = .ok ⟨failure, s', tr₃⟩) :
    Mirrored rules m (.unit (.maybeThen a b onMissing)) s (.hard failure) s'
      (tr₁ ++ (tr₂ ++ (tr₃ ++ .event (.nextMissed failure)))) := by
  intro t hb
  obtain ⟨t₁, hrun, hnear⟩ := h₁ (hb.invoke .maybeThen_before .maybeThen_before hb.near)
  obtain ⟨t₂, hrun', hnear'⟩ := h₂ (hb.invoke (.maybeThen_next hrun₁) (.maybeThen_next hrun) hnear)
  obtain ⟨t₃, hf', hnear''⟩ := hb.action hnear' hb.callsOnly.actsByCalls hf (fun _ => hrun₁.inspects_maybeThen hrun₂ hf)
    fun _ _ _ hf' _ => hrun.inspects_maybeThen hrun' hf'
  exact ⟨t₃, .maybeThen_escalate hrun hrun' hf', hnear''⟩

/-- A match whose value an action converts, or refuses. -/
theorem transform {f : Value → Action (Except Failure Value)} {x : Except Failure Value}
    (h : Mirrored rules m (.unit a) s (.matched v) u tr₁) (hrun₁ : Runs rules (.unit a) s (.matched v) u tr₁)
    (hf : (f v).run.run u = .ok ⟨x, s', tr₂⟩) :
    Mirrored rules m (.unit (.transform f a)) s (.ofExcept x) s' (tr₁ ++ tr₂) := by
  intro t hb
  obtain ⟨t₁, hrun, hnear⟩ := h (hb.invoke .transform .transform hb.near)
  obtain ⟨t₂, hf', hnear'⟩ := hb.action hnear (hb.callsOnly.actsByCalls _) hf (fun _ => hrun₁.inspects_transform hf)
    fun _ _ _ hf' _ => hrun.inspects_transform hf'
  refine ⟨t₂, ?_, hnear'⟩
  cases x with
  | ok => exact .transform_match hrun hf'
  | error => exact .transform_hard hrun hf'

end Mirrored

variable [CountingContext σ] [LocalContext σ]

/-- Every run is matched from the contexts beside its start. -/
theorem Runs.mirrored {o : Outcome Value} {tr : Trace} (h : Runs rules job s o s' tr) : Mirrored rules m job s o s' tr := by
  induction h with
  | @pop pred _ _ _ _ h =>
    rw [Parser.pop_eq_run] at h
    exact .leaf (fun _ => Action.callsOnly_takeIf pred) (fun hrun => .pop (by rw [Parser.pop_eq_run]; exact hrun)) h
  | apply h => exact .leaf (fun hcalls => hcalls.actsByCalls) .apply h
  | seq_stop _ ho ih => exact ih.one .seq_head fun h => .seq_stop h ho
  | seq_match h₁ _ ih₁ ih₂ => exact ih₁.two ih₂ h₁ .seq_head .seq_tail .seq_match
  | seq_hard h₁ _ ih₁ ih₂ => exact ih₁.two ih₂ h₁ .seq_head .seq_tail .seq_hard
  | seq_escalate h₁ h₂ hf ih₁ ih₂ => exact ih₁.seq_escalate ih₂ h₁ h₂ hf
  | bind_stop _ ho ih => exact ih.one_opened .bind_base fun h => .bind_stop h ho
  | bind_go h₁ _ ho ih₁ ih₂ => exact ih₁.two_opened ih₂ h₁ .bind_base .bind_next fun h₁ h₂ => .bind_go h₁ h₂ ho
  | bind_back h₁ h₂ hr ih₁ ih₂ =>
    obtain rfl := LawfulContext.eq_of_restore (h₁.descends.trans h₂.descends) hr
    exact ih₁.bind_back ih₂ h₁
  | choose_first _ ho ih => exact ih.one_opened .choose_first fun h => .choose_first h ho
  | choose_second h₁ hr _ ih₁ ih₂ =>
    obtain rfl := LawfulContext.eq_of_restore h₁.descends hr
    exact ih₁.back ih₂ h₁ hr .choose_first .choose_second .choose_second
  | oneOf _ ih => exact ih.one .oneOf .oneOf
  | candidates_none => exact fun t hb => ⟨t, .candidates_none, hb.near⟩
  | candidates_here _ ho ih => exact ih.one_opened .candidates_here fun h => .candidates_here h ho
  | candidates_next h₁ hr _ ih₁ ih₂ =>
    obtain rfl := LawfulContext.eq_of_restore h₁.descends hr
    exact ih₁.back ih₂ h₁ hr .candidates_here .candidates_next .candidates_next
  | rescue_primary _ ih => exact ih.one_opened .rescue_primary .rescue_primary
  | rescue_missed h₁ hr _ ih₁ ih₂ =>
    obtain rfl := LawfulContext.eq_of_restore h₁.descends hr
    exact ih₁.back ih₂ h₁ hr .rescue_primary .rescue_missed .rescue_missed
  | rescue_recover h₁ hr _ ih₁ ih₂ =>
    obtain rfl := LawfulContext.eq_of_restore h₁.descends hr
    exact ih₁.back ih₂ h₁ hr .rescue_primary .rescue_recover .rescue_recover
  | maybe_present _ ih => exact ih.one_opened .maybe .maybe_present
  | maybe_hard _ ih => exact ih.one_opened .maybe .maybe_hard
  | maybe_absent h₁ hr ih =>
    obtain rfl := LawfulContext.eq_of_restore h₁.descends hr
    exact ih.undone .maybe .maybe_absent
  | maybeThen_stop _ ih => exact ih.one .maybeThen_before .maybeThen_stop
  | maybeThen_match h₁ _ ih₁ ih₂ => exact ih₁.two ih₂ h₁ .maybeThen_before .maybeThen_next .maybeThen_match
  | maybeThen_hard h₁ _ ih₁ ih₂ => exact ih₁.two ih₂ h₁ .maybeThen_before .maybeThen_next .maybeThen_hard
  | maybeThen_absent h₁ _ ih₁ ih₂ => exact ih₁.two ih₂ h₁ .maybeThen_before .maybeThen_next .maybeThen_absent
  | maybeThen_escalate h₁ h₂ hf ih₁ ih₂ => exact ih₁.maybeThen_escalate ih₂ h₁ h₂ hf
  | turns_stop h₁ hr ih =>
    obtain rfl := LawfulContext.eq_of_restore h₁.descends hr
    exact ih.undone .turns_base .turns_stop
  | turns_hard _ ih => exact ih.one_opened .turns_base .turns_hard
  | turns_more h₁ _ ih₁ ih₂ => exact ih₁.two_opened ih₂ h₁ .turns_base .turns_more .turns_more
  | turns_more_hard h₁ _ ih₁ ih₂ => exact ih₁.two_opened ih₂ h₁ .turns_base .turns_more .turns_more_hard
  | oneOrMany_none _ ih => exact ih.one .oneOrMany .oneOrMany_none
  | oneOrMany_some _ ih => exact ih.one .oneOrMany .oneOrMany_some
  | oneOrMany_hard _ ih => exact ih.one .oneOrMany .oneOrMany_hard
  | zeroOrMany_some _ ih => exact ih.one .zeroOrMany .zeroOrMany_some
  | zeroOrMany_hard _ ih => exact ih.one .zeroOrMany .zeroOrMany_hard
  | map_match _ ih => exact ih.one .map .map_match
  | map_stop _ ho ih => exact ih.one .map fun h => .map_stop h ho
  | transform_stop _ ho ih => exact ih.one .transform fun h => .transform_stop h ho
  | transform_match h₁ hf ih => exact ih.transform h₁ hf
  | transform_hard h₁ hf ih => exact ih.transform h₁ hf
  | wrap _ ih => exact ih.one .wrap .wrap
  | link hbody _ ih => exact ih.one (.link hbody) (.link hbody)
  | link_unbound hnone => exact fun t hb => ⟨t, .link_unbound hnone, hb.near⟩

/-- What a parse returns from one context, with its trace and the number of items consumed, it returns from the other. -/
theorem Beside.result {g : Grammar} (hb : Beside rules m (.unit g) s t) {o : Outcome Value} {k : Nat} {tr : Trace}
    (h : ∃ fuel s', (g.eval rules fuel).run s = .ok ⟨o, s', tr⟩ ∧ Context.consumed s' = k) :
    ∃ fuel t', (g.eval rules fuel).run t = .ok ⟨o, t', tr⟩ ∧ Context.consumed t' = k := by
  obtain ⟨fuel, s', hrun, rfl⟩ := h
  obtain ⟨t', hrun', hnear⟩ := (runs_iff_eval.2 ⟨fuel, hrun⟩).mirrored hb
  obtain ⟨fuel', heval⟩ := runs_iff_eval.1 hrun'
  exact ⟨fuel', t', heval, hnear.consumed.symm⟩

/-- Where the unit returns from the one context, it returns from the other. -/
theorem Beside.returns {g : Grammar} (hb : Beside rules m (.unit g) s t) (h : Returns rules (.unit g) s) :
    Returns rules (.unit g) t := by
  obtain ⟨o, s', tr, hrun⟩ := h
  obtain ⟨t', hrun', -⟩ := hrun.mirrored hb
  exact ⟨o, t', tr, hrun'⟩

/-- Let the actions of a grammar see the input through calls only, and let two contexts be at the same place. If the run from the
first never looks at an item or takes one with `m` items consumed or more, and the two inputs agree in their first `m` items, then
the run from the second has the same outcome, consumes the same number of items, and makes the same calls at the same places and
reports the same events, all in the same order; and if one run does not end, neither does the other. -/
theorem inspected_items_decide {g : Grammar} (hcalls : g.CallsOnly rules) (hs : InBounds s) (ht : InBounds t)
    (hplace : Context.consumed s = Context.consumed t)
    (hitems : (Context.remaining s).take (m - Context.consumed s) = (Context.remaining t).take (m - Context.consumed s))
    (hseen : ∀ n, g.Inspects rules s n → n < m) :
    (∀ o k tr, (∃ fuel s', (g.eval rules fuel).run s = .ok ⟨o, s', tr⟩ ∧ Context.consumed s' = k) ↔
      ∃ fuel t', (g.eval rules fuel).run t = .ok ⟨o, t', tr⟩ ∧ Context.consumed t' = k) ∧
    (g.Ends rules s ↔ g.Ends rules t) := by
  have hb : Beside rules m (.unit g) s t := ⟨hcalls, ht, ⟨hplace, hitems⟩, .inl hseen⟩
  have hb' : Beside rules m (.unit g) t s := ⟨hcalls, hs, hb.near.symm, .inr hseen⟩
  refine ⟨fun o k tr => ⟨hb.result, hb'.result⟩, ?_⟩
  rw [Grammar.ends_iff_returns hs, Grammar.ends_iff_returns ht]
  exact ⟨hb.returns, hb'.returns⟩

end

/-! ### Digits without a sign, and an opening bracket without a closing one -/

/-- The number that a digit stands for. -/
def digitValue : Value → Option Int64
  | .char c => if c.isDigit then some (.ofNat (c.toNat - '0'.toNat)) else none
  | _ => none

/-- Takes digits from the front, at most `n`, and adds them to `sum`; without any digit there is no sum. -/
def addDigits (sum : Option Int64) : (n : Nat) → Action (Outcome Value)
  | 0 => .done (.ofOption (sum.map .int))
  | n + 1 => .front fun item => match item.bind digitValue with
    | none => .done (.ofOption (sum.map .int))
    | some digit => .popFront fun _ => addDigits (some (sum.getD 0 + digit)) n

/-- Takes all digits from the front and adds them up. -/
def digits : Action (Outcome Value) :=
  .remaining fun items => addDigits none (items.length + 1)

/-- A bounded number of turns looks and takes. -/
theorem addDigits_callsOnly (sum : Option Int64) (n : Nat) : (addDigits sum n).CallsOnly := by
  induction n generalizing sum with
  | zero => exact .done _
  | succ n ih =>
    refine .front fun item => ?_
    cases item.bind digitValue with
    | none => exact .done _
    | some digit => exact .popFront fun _ => ih _

/-- One turn for each item, and one to see that none is left, are enough. -/
theorem addDigits_onItems {items : List Value} (sum : Option Int64) {n k : Nat} (hn : items.length < n) (hk : items.length < k) :
    (addDigits sum n).onItems items = (addDigits sum k).onItems items := by
  induction items generalizing sum n k with
  | nil =>
    obtain ⟨n, rfl⟩ : ∃ m, n = m + 1 := ⟨n - 1, by omega⟩
    obtain ⟨k, rfl⟩ : ∃ m, k = m + 1 := ⟨k - 1, by omega⟩
    rfl
  | cons item items ih =>
    rw [List.length_cons] at hn hk
    obtain ⟨n, rfl⟩ : ∃ m, n = m + 1 := ⟨n - 1, by omega⟩
    obtain ⟨k, rfl⟩ : ∃ m, k = m + 1 := ⟨k - 1, by omega⟩
    simp only [addDigits, Action.onItems, List.head?_cons, Option.bind_some]
    cases digitValue item with
    | none => rfl
    | some digit =>
      simp only [Action.onItems, List.tail_cons]
      rw [ih _ (Nat.lt_of_succ_lt_succ hn) (Nat.lt_of_succ_lt_succ hk)]

/-- So digits are taken by looks and takes only. -/
theorem digits_callsOnly : digits.CallsOnly :=
  .loop (addDigits_callsOnly none) fun _ _ hn => addDigits_onItems none hn (by omega)

/-- A rule that runs the function. -/
def digitRules : Rules :=
  (Store.empty.running (.apply digits)).2.bodies

/-- Digits before a sign, or else the digits alone. -/
def digitsBeforeSign : Grammar :=
  .rescue (.seq (.link ⟨0, true⟩) (.pop (· == .char '+')) (.done .unexpected)) (.link ⟨0, true⟩)

/-- The rule runs the function, and nothing else. -/
theorem digitRules_callsOnly : (Grammar.link ⟨0, true⟩).CallsOnly digitRules := by
  refine .of_children trivial fun h hchild => ?_
  cases hchild with
  | link hbody =>
    cases hbody
    refine .of_children trivial fun h hchild => ?_
    cases hchild
    exact .of_children digits_callsOnly fun h hchild => nomatch hchild

/-- The digits with a sign or without one are taken by looks and takes only. -/
theorem digitsBeforeSign_callsOnly : digitsBeforeSign.CallsOnly digitRules := by
  refine .of_children trivial fun h hchild => ?_
  cases hchild with
  | rescue_primary =>
    refine .of_children (.done _) fun h hchild => ?_
    cases hchild with
    | seq_head => exact digitRules_callsOnly
    | seq_tail => exact .of_children trivial fun h hchild => nomatch hchild
  | rescue_fallback => exact digitRules_callsOnly

/-- Nested brackets, or else the opening bracket alone. -/
def bracketsOrOpening : Grammar :=
  .rescue (.link ⟨0, false⟩) (.pop (· == .char '('))

/-- The units of the rule for brackets run no function of their own that could view the input. -/
theorem BracketPart.actsByCalls {g : Grammar} (h : BracketPart g) : g.ActsByCalls := by
  cases h with
  | rule | item | many => trivial
  | body | inside => exact .done _

/-- The rule for brackets and its fallback look and take only. -/
theorem bracketsOrOpening_callsOnly : bracketsOrOpening.CallsOnly bracketRules := by
  refine .of_children trivial fun h hchild => ?_
  cases hchild with
  | rescue_primary => exact fun k hk => (BracketPart.of_part hk).actsByCalls
  | rescue_fallback => exact .of_children trivial fun h hchild => nomatch hchild

/-- The run of a unit on a text, read off what is computed of it; whatever it inspects stands before the bound. -/
theorem exists_run_of_computed {rules : Rules} {g : Grammar} {s : Text} {fuel k m : Nat} {o : Outcome Value}
    (h : ((g.eval rules fuel).run s).toOption.map
      (fun r => (r.value, r.context.consumed, r.trace.inspected.all (· < m))) = some (o, k, true)) :
    ∃ s' tr, (g.eval rules fuel).run s = .ok ⟨o, s', tr⟩ ∧ Context.consumed s' = k ∧ ∀ n ∈ tr.inspected, n < m := by
  obtain ⟨_, s', tr, hrun, hread⟩ := Engine.exists_report h
  obtain ⟨rfl, hrest⟩ := Prod.mk.inj hread
  obtain ⟨hk, hall⟩ := Prod.mk.inj hrest
  exact ⟨s', tr, hrun, hk, fun n hn => of_decide_eq_true (List.all_eq_true.1 hall n hn)⟩

/-- A unit inspects nothing at the bound or beyond, if a run of it that ends does not. -/
theorem Grammar.inspects_lt {rules : Rules} {g : Grammar} {s s' : Text} {fuel m : Nat} {o : Outcome Value} {tr : Trace}
    (h : (g.eval rules fuel).run s = .ok ⟨o, s', tr⟩) (hseen : ∀ n ∈ tr.inspected, n < m) :
    ∀ n, g.Inspects rules s n → n < m :=
  fun n hn => hseen n ((runs_iff_eval.2 ⟨fuel, h⟩).inspects_iff.1 hn)

/-- In `12x` the digits are taken again and alone, since no sign follows them; in `((x` the brackets fail hard at the third letter,
and the opening one is taken alone. What follows the third letter is never inspected, so the same is done where the texts go
on. -/
theorem digits_and_brackets_inspect_three :
    (∃ tr, (∀ n ∈ tr.inspected, n < 3) ∧
      (∃ fuel s', (digitsBeforeSign.eval digitRules fuel).run (Text.ofString "12x") = .ok ⟨.matched (.int 3), s', tr⟩ ∧
        Context.consumed s' = 2) ∧
      ∃ fuel t', (digitsBeforeSign.eval digitRules fuel).run (Text.ofString "12xyz") = .ok ⟨.matched (.int 3), t', tr⟩ ∧
        Context.consumed t' = 2) ∧
    ∃ tr, (∀ n ∈ tr.inspected, n < 3) ∧
      (∃ fuel s', (bracketsOrOpening.eval bracketRules fuel).run (Text.ofString "((x") = .ok ⟨.matched (.char '('), s', tr⟩ ∧
        Context.consumed s' = 1) ∧
      ∃ fuel t', (bracketsOrOpening.eval bracketRules fuel).run (Text.ofString "((xyz") = .ok ⟨.matched (.char '('), t', tr⟩ ∧
        Context.consumed t' = 1 := by
  constructor
  · obtain ⟨s', tr, hrun, hk, hseen⟩ : ∃ s' tr,
        (digitsBeforeSign.eval digitRules 10).run (Text.ofString "12x") = .ok ⟨.matched (.int 3), s', tr⟩ ∧
          Context.consumed s' = 2 ∧ ∀ n ∈ tr.inspected, n < 3 :=
      exists_run_of_computed (by decide +kernel)
    obtain ⟨hsame, -⟩ := inspected_items_decide (s := Text.ofString "12x") (t := Text.ofString "12xyz") digitsBeforeSign_callsOnly
      trivial trivial rfl (by decide) (Grammar.inspects_lt hrun hseen)
    exact ⟨tr, hseen, ⟨10, s', hrun, hk⟩, (hsame _ _ _).1 ⟨10, s', hrun, hk⟩⟩
  · obtain ⟨s', tr, hrun, hk, hseen⟩ : ∃ s' tr,
        (bracketsOrOpening.eval bracketRules 20).run (Text.ofString "((x") = .ok ⟨.matched (.char '('), s', tr⟩ ∧
          Context.consumed s' = 1 ∧ ∀ n ∈ tr.inspected, n < 3 :=
      exists_run_of_computed (by decide +kernel)
    obtain ⟨hsame, -⟩ := inspected_items_decide (s := Text.ofString "((x") (t := Text.ofString "((xyz") bracketsOrOpening_callsOnly
      trivial trivial rfl (by decide) (Grammar.inspects_lt hrun hseen)
    exact ⟨tr, hseen, ⟨20, s', hrun, hk⟩, (hsame _ _ _).1 ⟨20, s', hrun, hk⟩⟩

end Backtrack
