import Backtrack.Proofs.Agreement
import Backtrack.Proofs.Invocations

/-!
# Rewinds

A unit remembers places, and goes back to some of them. It never goes back past the place where it was started: whatever a
unit calls the context for, it does so at a place ahead of that one and within the input. Each time it goes back, it goes to a
place that it remembered before and has not left backwards since, and it uses no remembered place twice.
-/

namespace Backtrack

open LawfulContext (InBounds)

/-! ## Places within an input -/

/-- A context on which the items that are left and those that are consumed always add up to the same input. -/
class CountingContext (σ : Type) [Context σ] : Prop where
  consumed_popFront (s : σ) :
    Context.consumed (Context.popFront s).2 + (Context.remaining (Context.popFront s).2).length =
      Context.consumed s + (Context.remaining s).length

instance {ι : Type} [Item ι] : CountingContext (Suffix ι) where
  consumed_popFront s := by
    simp only [Context.consumed, Context.popFront, Context.remaining, List.length_map]
    unfold Suffix.popFront
    split
    · rfl
    · next hs =>
      rw [hs, List.length_cons]
      dsimp only
      omega

instance {ι : Type} [Item ι] : CountingContext (Cursor ι) where
  consumed_popFront c := by
    simp only [Context.consumed, Context.popFront, Context.remaining, List.length_map]
    unfold Cursor.advance
    split
    · rfl
    · next x hx =>
      obtain ⟨hlt, -⟩ := Array.getElem?_eq_some_iff.1 hx
      simp only [Cursor.remaining, List.length_drop, Array.length_toList]
      omega

section

variable {σ : Type} [Context σ]

/-- The number of all items of the input, those consumed and those left. -/
def Context.inputLength (s : σ) : Nat :=
  Context.consumed s + (Context.remaining s).length

/-- The context `t` lies ahead of `s` in the same input: it has consumed no fewer items, and no more than there are, and what it
has left is an end of what `s` has left. -/
structure Ahead (s t : σ) : Prop where
  consumed_le : Context.consumed s ≤ Context.consumed t
  consumed_le_inputLength : Context.consumed t ≤ Context.inputLength s
  suffix : Context.remaining t <:+ Context.remaining s

namespace Descends

variable {s t : σ}

/-- What is left after taking items is an end of what was left before. -/
theorem remaining_suffix [LawfulContext σ] (h : Descends s t) : Context.remaining t <:+ Context.remaining s := by
  induction h with
  | refl => exact List.suffix_refl _
  | @pop t _ ih =>
    have htail : Context.remaining (Context.popFront t).2 <:+ Context.remaining t := by
      rw [LawfulContext.remaining_popFront]
      exact List.tail_suffix _
    exact htail.trans ih

/-- Taking items does not change how long the input is. -/
theorem inputLength_eq [CountingContext σ] (h : Descends s t) : Context.inputLength t = Context.inputLength s := by
  induction h with
  | refl => rfl
  | @pop t _ ih =>
    rw [← ih]
    exact CountingContext.consumed_popFront t

/-- What is left when items are taken lies ahead. -/
theorem ahead [LawfulContext σ] [CountingContext σ] (h : Descends s t) : Ahead s t := by
  have hsuffix := h.remaining_suffix
  have hle := hsuffix.length_le
  have hlength := h.inputLength_eq
  simp only [Context.inputLength] at hlength
  exact ⟨by omega, by simp only [Context.inputLength]; omega, hsuffix⟩

end Descends

/-! ## Calls made one after another -/

namespace Trace

@[simp] theorem calls_opened (s : σ) : (opened s).calls = [.backup (Context.consumed s)] := rfl

@[simp] theorem calls_rewound (s : σ) : (rewound s).calls = [.restore (Context.consumed s)] := rfl

@[simp] theorem calls_event (e : Event) : (event e).calls = [] := rfl

/-- Of a call and the events that it reports only the call counts. -/
theorem calls_call_events (c : Call) (es : List Event) : (ofList (.call c :: es.map .event)).calls = [c] := by
  simp [calls, List.filterMap_map]

end Trace

/-- `Plays s calls t`: the calls, made one after another from the context `s`, leave the context `t`; a return to a remembered
place and the call that remembered it enclose what was done in between. -/
inductive Plays : σ → List Call → σ → Prop where
  | nil {s : σ} : Plays s [] s
  | backup {s : σ} : Plays s [.backup (Context.consumed s)] s
  | front {s : σ} : Plays s [.front (Context.consumed s)] s
  | popFront {s : σ} : Plays s [.popFront (Context.consumed s)] (Context.popFront s).2
  | append {s t u : σ} {cs ds : List Call} : Plays s cs t → Plays t ds u → Plays s (cs ++ ds) u
  | rewind {s t u : σ} {cs : List Call} : Plays s cs t → Context.restore t (Context.backup s) = .ok u →
      Plays s (.backup (Context.consumed s) :: (cs ++ [.restore (Context.consumed u)])) u

namespace Plays

variable {s t u w : σ} {tr tr₁ tr₂ : Trace} {e : Event}

/-- An action makes its calls where it comes to be. -/
theorem action {α : Type} {f : Action α} {a : α} (h : f.run.run s = .ok ⟨a, t, tr⟩) : Plays s tr.calls t := by
  induction f generalizing s tr with
  | done a =>
    obtain ⟨-, rfl, rfl⟩ := Engine.run_pure_eq_ok.1 h
    exact .nil
  | front k ih =>
    obtain ⟨item, s', tr₁, hcall, tr₂, hrest, rfl⟩ := Engine.run_bind_eq_ok.1 h
    cases hcall
    rw [Trace.calls_append]
    exact .append .front (ih _ hrest)
  | popFront k ih =>
    obtain ⟨item, s', tr₁, hcall, tr₂, hrest, rfl⟩ := Engine.run_bind_eq_ok.1 h
    cases hcall
    rw [Trace.calls_append, Trace.calls_call_events]
    exact .append .popFront (ih _ hrest)
  | remaining k ih =>
    obtain ⟨item, s', tr₁, hcall, tr₂, hrest, rfl⟩ := Engine.run_bind_eq_ok.1 h
    cases hcall
    rw [Trace.nil_append]
    exact ih _ hrest

/-- The predicate leaf looks at the first item, and takes it if it satisfies the predicate. -/
theorem pop {pred : Value → Bool} {o : Outcome Value} (h : (Parser.pop pred).run s = .ok ⟨o, t, tr⟩) : Plays s tr.calls t := by
  obtain ⟨item, s', tr₁, hcall, tr₂, hrest, rfl⟩ := Engine.run_bind_eq_ok.1 h
  cases hcall
  rw [Trace.calls_append]
  refine .append .front ?_
  cases hitem : Context.front s with
  | none =>
    rw [hitem] at hrest
    obtain ⟨-, rfl, rfl⟩ := Engine.run_pure_eq_ok.1 hrest
    exact .nil
  | some v =>
    simp only [hitem] at hrest
    by_cases hv : pred v = true
    · rw [if_pos hv] at hrest
      obtain ⟨item, s', tr₁, hcall, tr₂, hpure, rfl⟩ := Engine.run_bind_eq_ok.1 hrest
      cases hcall
      obtain ⟨-, rfl, rfl⟩ := Engine.run_pure_eq_ok.1 hpure
      rw [Trace.append_nil, Trace.calls_call_events]
      exact .popFront
    · rw [if_neg hv] at hrest
      obtain ⟨-, rfl, rfl⟩ := Engine.run_pure_eq_ok.1 hrest
      exact .nil

theorem seq (h₁ : Plays s tr₁.calls t) (h₂ : Plays t tr₂.calls u) : Plays s (tr₁ ++ tr₂).calls u := by
  rw [Trace.calls_append]
  exact .append h₁ h₂

/-- A remembered place comes before the calls of a unit. -/
theorem opened (h : Plays s tr.calls t) : Plays s (.opened s ++ tr : Trace).calls t := by
  rw [Trace.calls_append]
  exact .append .backup h

/-- A return to it comes after them. -/
theorem rewound (h : Plays s tr.calls t) (hr : Context.restore t (Context.backup s) = .ok u) :
    Plays s (.opened s ++ (tr ++ .rewound u) : Trace).calls u := by
  simp only [Trace.calls_append, Trace.calls_opened, Trace.calls_rewound]
  exact .rewind h hr

/-- A part is tried, given up, and something else is done from where it was started. -/
theorem backtracked (h₁ : Plays s tr₁.calls t) (hr : Context.restore t (Context.backup s) = .ok u)
    (h₂ : Plays u tr₂.calls w) : Plays s (.opened s ++ (tr₁ ++ (.event e ++ (.rewound u ++ tr₂))) : Trace).calls w := by
  have h := (h₁.rewound hr).seq h₂
  simp only [Trace.calls_append, Trace.calls_event, List.nil_append, List.append_assoc] at h ⊢
  exact h

/-- A report is no call. -/
theorem reported (h : Plays s tr.calls t) : Plays s (tr ++ .event e : Trace).calls t := by
  rw [Trace.calls_append, Trace.calls_event, List.append_nil]
  exact h

end Plays

/-- The calls of a run lead from the context where it started to the one that it leaves. -/
theorem Runs.plays {rules : Rules} {job : Job} {s t : σ} {o : Outcome Value} {tr : Trace} (h : Runs rules job s o t tr) :
    Plays s tr.calls t := by
  induction h with
  | pop h => exact .pop h
  | apply h => exact .action h
  | candidates_none | link_unbound => exact .nil
  | oneOf _ ih | maybeThen_stop _ ih | oneOrMany_hard _ ih | zeroOrMany_hard _ ih | map_match _ ih | wrap _ ih => exact ih
  | seq_stop _ _ ih | map_stop _ _ ih | transform_stop _ _ ih | link _ _ ih => exact ih
  | rescue_primary _ ih | maybe_present _ ih | maybe_hard _ ih | turns_hard _ ih => exact ih.opened
  | bind_stop _ _ ih | choose_first _ _ ih | candidates_here _ _ ih => exact ih.opened
  | oneOrMany_none _ ih | oneOrMany_some _ ih | zeroOrMany_some _ ih => exact ih.reported
  | seq_match _ _ ih₁ ih₂ | seq_hard _ _ ih₁ ih₂ | maybeThen_match _ _ ih₁ ih₂ | maybeThen_hard _ _ ih₁ ih₂
  | maybeThen_absent _ _ ih₁ ih₂ => exact ih₁.seq ih₂
  | turns_more _ _ ih₁ ih₂ | turns_more_hard _ _ ih₁ ih₂ | bind_go _ _ _ ih₁ ih₂ => exact (ih₁.seq ih₂).opened
  | seq_escalate _ _ hf ih₁ ih₂ | maybeThen_escalate _ _ hf ih₁ ih₂ => exact ih₁.seq (ih₂.seq (Plays.action hf).reported)
  | transform_match _ hf ih | transform_hard _ hf ih => exact ih.seq (.action hf)
  | bind_back _ _ hr ih₁ ih₂ =>
    have h := (ih₁.seq ih₂).rewound hr
    rw [Trace.append_assoc] at h
    exact h
  | maybe_absent _ hr ih | turns_stop _ hr ih => exact ih.rewound hr
  | choose_second _ hr _ ih₁ ih₂ | candidates_next _ hr _ ih₁ ih₂ | rescue_missed _ hr _ ih₁ ih₂
  | rescue_recover _ hr _ ih₁ ih₂ => exact ih₁.backtracked hr ih₂

/-! ## Calls one by one -/

/-- What a call on the context `u` makes of it, which is `w`: the number of the call is that of the items consumed, before it or,
for a return, after it. -/
def Call.Makes (u w : σ) : Call → Prop
  | .backup n | .front n => Context.consumed u = n ∧ w = u
  | .popFront n => Context.consumed u = n ∧ w = (Context.popFront u).2
  | .restore n => Context.consumed w = n

/-- The number of a call is that of the items consumed just before it or just after it. -/
theorem Call.Makes.consumed_eq {u w : σ} {c : Call} (h : c.Makes u w) :
    c.consumed = Context.consumed u ∨ c.consumed = Context.consumed w := by
  cases c with
  | backup n | front n | popFront n => exact .inl h.1.symm
  | restore n => exact .inr (Eq.symm h)

/-- Among calls made each on its `place`, the one numbered `i` goes back to what the one numbered `k` remembered, at `n` consumed
items, and no call between the two is made before that place. -/
structure Return (calls : List Call) (place : Nat → σ) (k i n : Nat) : Prop where
  lt : k < i
  opened : calls[k]? = some (.backup n)
  restored : Context.restore (place i) (Context.backup (place k)) = .ok (place (i + 1))
  between {j : Nat} {c : Call} : k < j → j < i → calls[j]? = some c → n ≤ c.consumed

/-- The calls are made one after another, the one numbered `i` on the context `place i`. Each return has an earlier call, its
`opener`, to whose place it goes, and no two returns share an opener. -/
structure Replay (s t : σ) (calls : List Call) (opener : Nat → Nat) (place : Nat → σ) : Prop where
  start : place 0 = s
  finish : place calls.length = t
  descends {i : Nat} : i ≤ calls.length → Descends s (place i)
  makes {i : Nat} {c : Call} : calls[i]? = some c → c.Makes (place i) (place (i + 1))
  returns {i n : Nat} : calls[i]? = some (.restore n) → Return calls place (opener i) i n
  opener_injective {i j m n : Nat} : calls[i]? = some (.restore m) → calls[j]? = some (.restore n) →
    opener i = opener j → i = j

/-- A return stays one when `d` calls are put in front. -/
theorem Return.shift {calls calls' : List Call} {place place' : Nat → σ} {d i i' k k' n : Nat}
    (h : Return calls place k i n) (hk : k' = d + k) (hi : i' = d + i) (hcalls : ∀ j ≤ i, calls'[d + j]? = calls[j]?)
    (hplace : ∀ j ≤ i + 1, place' (d + j) = place j) : Return calls' place' k' i' n := by
  have hlt := h.lt
  subst hk hi
  refine ⟨by omega, ?_, ?_, ?_⟩
  · rw [hcalls k (by omega)]
    exact h.opened
  · rw [hplace i (by omega), hplace k (by omega), Nat.add_assoc, hplace (i + 1) (by omega)]
    exact h.restored
  · intro j c hkj hji hc
    obtain ⟨l, rfl⟩ : ∃ l, j = d + l := ⟨j - d, by omega⟩
    rw [hcalls l (by omega)] at hc
    exact h.between (by omega) (by omega) hc

/-- The numbering of two lists one after another, of which the first has `n` members. -/
def splice {α : Type} (n : Nat) (f g : Nat → α) (i : Nat) : α :=
  if i < n then f i else g (i - n)

theorem splice_left {α : Type} {n i : Nat} (f g : Nat → α) (h : i < n) : splice n f g i = f i :=
  if_pos h

theorem splice_right {α : Type} (n : Nat) (f g : Nat → α) (i : Nat) : splice n f g (n + i) = g i := by
  rw [splice, if_neg (by omega), Nat.add_sub_cancel_left]

/-- A list of one has no other member. -/
theorem eq_of_getElem?_singleton {α : Type} {a b : α} {i : Nat} (h : [a][i]? = some b) : i = 0 ∧ b = a := by
  cases i with
  | zero => exact ⟨rfl, (Option.some.inj h).symm⟩
  | succ i => nomatch h

/-- A member of two lists one after another is a member of the first or of the second. -/
theorem getElem?_append_cases {α : Type} {as bs : List α} {i : Nat} {a : α} (h : (as ++ bs)[i]? = some a) :
    (i < as.length ∧ as[i]? = some a) ∨ ∃ j, i = as.length + j ∧ bs[j]? = some a := by
  by_cases hlt : i < as.length
  · rw [List.getElem?_append_left hlt] at h
    exact .inl ⟨hlt, h⟩
  · rw [List.getElem?_append_right (by omega)] at h
    exact .inr ⟨i - as.length, by omega, h⟩

namespace Replay

variable {s t u : σ} {cs ds : List Call} {opener opener' : Nat → Nat} {place place' : Nat → σ}

theorem nil : Replay s s [] id (fun _ => s) where
  start := rfl
  finish := rfl
  descends _ := .refl
  makes h := nomatch h
  returns h := nomatch h
  opener_injective h := nomatch h

/-- One call other than a return. -/
theorem single {c : Call} (hc : ∀ n, c ≠ .restore n) (hst : Descends s t) (hmakes : c.Makes s t) :
    Replay s t [c] id (fun i => if i = 0 then s else t) := by
  refine ⟨rfl, rfl, ?_, ?_, fun h => absurd (eq_of_getElem?_singleton h).2.symm (hc _),
    fun h => absurd (eq_of_getElem?_singleton h).2.symm (hc _)⟩
  · intro i _
    by_cases hi : i = 0
    · rw [if_pos hi]
      exact .refl
    · rw [if_neg hi]
      exact hst
  · intro i d h
    obtain ⟨rfl, rfl⟩ := eq_of_getElem?_singleton h
    exact hmakes

/-- Calls after others; where the two lists meet, both give the same place. -/
theorem append (h : Replay s t cs opener place) (h' : Replay t u ds opener' place') :
    Replay s u (cs ++ ds) (splice cs.length opener (fun i => cs.length + opener' i)) (splice cs.length place place') := by
  have hplace : ∀ {i}, i ≤ cs.length → splice cs.length place place' i = place i := by
    intro i hi
    by_cases hlt : i < cs.length
    · exact splice_left _ _ hlt
    · obtain rfl : i = cs.length := by omega
      rw [h.finish, ← h'.start]
      exact splice_right _ _ _ 0
  refine ⟨?_, ?_, ?_, ?_, ?_, ?_⟩
  · rw [hplace (Nat.zero_le _), h.start]
  · rw [List.length_append, splice_right, h'.finish]
  · intro i hi
    rw [List.length_append] at hi
    by_cases hle : i ≤ cs.length
    · rw [hplace hle]
      exact h.descends hle
    · obtain ⟨k, rfl⟩ : ∃ k, i = cs.length + k := ⟨i - cs.length, by omega⟩
      have hst : Descends s t := h.finish ▸ h.descends (Nat.le_refl _)
      rw [splice_right]
      exact hst.trans (h'.descends (by omega))
  · intro i c hi
    rcases getElem?_append_cases hi with ⟨hlt, hc⟩ | ⟨k, rfl, hd⟩
    · rw [hplace (by omega), hplace (by omega)]
      exact h.makes hc
    · rw [splice_right, Nat.add_assoc, splice_right]
      exact h'.makes hd
  · intro i n hi
    rcases getElem?_append_cases hi with ⟨hlt, hc⟩ | ⟨k, rfl, hd⟩
    · rw [splice_left _ _ hlt]
      refine (h.returns hc).shift (d := 0) (by omega) (by omega) (fun j hj => ?_) (fun j hj => ?_)
      · rw [Nat.zero_add, List.getElem?_append_left (by omega)]
      · rw [Nat.zero_add, hplace (by omega)]
    · rw [splice_right]
      refine (h'.returns hd).shift (d := cs.length) rfl rfl (fun j _ => ?_) (fun j _ => splice_right _ _ _ j)
      rw [List.getElem?_append_right (by omega), Nat.add_sub_cancel_left]
  · intro i j m n hi hj hij
    rcases getElem?_append_cases hi with ⟨hlt, hc⟩ | ⟨k, rfl, hd⟩ <;> rcases getElem?_append_cases hj with ⟨hlt', hc'⟩ | ⟨l, rfl, hd'⟩
    · rw [splice_left _ _ hlt, splice_left _ _ hlt'] at hij
      exact h.opener_injective hc hc' hij
    · rw [splice_left _ _ hlt, splice_right] at hij
      have := (h.returns hc).lt
      omega
    · rw [splice_right, splice_left _ _ hlt'] at hij
      have := (h.returns hc').lt
      omega
    · rw [splice_right, splice_right] at hij
      rw [h'.opener_injective hd hd' (by omega)]

/-- A return, after other calls, to a place that one of them remembered and none has returned to. -/
theorem return_to {k n : Nat} (h : Replay s t cs opener place) (hk : cs[k]? = some (.backup n))
    (hr : Context.restore t (Context.backup (place k)) = .ok u) (hu : Descends s u) (hn : Context.consumed u = n)
    (hbetween : ∀ {j c}, k < j → cs[j]? = some c → n ≤ c.consumed)
    (hunused : ∀ {i m}, cs[i]? = some (.restore m) → opener i ≠ k) :
    Replay s u (cs ++ [.restore n]) (splice cs.length opener (fun _ => k)) (splice (cs.length + 1) place (fun _ => u)) := by
  obtain ⟨hklt, -⟩ := List.getElem?_eq_some_iff.1 hk
  have hsplit : ∀ {i c}, (cs ++ [Call.restore n])[i]? = some c →
      (i < cs.length ∧ cs[i]? = some c) ∨ (i = cs.length ∧ c = .restore n) := by
    intro i c hc
    refine (getElem?_append_cases hc).imp_right ?_
    rintro ⟨j, rfl, hlast⟩
    obtain ⟨rfl, rfl⟩ := eq_of_getElem?_singleton hlast
    exact ⟨rfl, rfl⟩
  have hleft : ∀ {j}, j < cs.length → (cs ++ [Call.restore n])[j]? = cs[j]? := fun hj => List.getElem?_append_left hj
  have hplace : ∀ {i}, i ≤ cs.length → splice (cs.length + 1) place (fun _ => u) i = place i :=
    fun hi => splice_left _ _ (by omega)
  have hlast : splice (cs.length + 1) place (fun _ => u) (cs.length + 1) = u := splice_right (cs.length + 1) _ _ 0
  have hopener : splice cs.length opener (fun _ => k) cs.length = k := splice_right cs.length _ _ 0
  refine ⟨?_, ?_, ?_, ?_, ?_, ?_⟩
  · rw [hplace (Nat.zero_le _), h.start]
  · rw [List.length_append, List.length_singleton, hlast]
  · intro i hi
    rw [List.length_append, List.length_singleton] at hi
    by_cases hle : i ≤ cs.length
    · rw [hplace hle]
      exact h.descends hle
    · obtain rfl : i = cs.length + 1 := by omega
      rw [hlast]
      exact hu
  · intro i c hi
    rcases hsplit hi with ⟨hlt, hc⟩ | ⟨rfl, rfl⟩
    · rw [hplace (by omega), hplace (by omega)]
      exact h.makes hc
    · rw [hlast]
      exact hn
  · intro i m hi
    rcases hsplit hi with ⟨hlt, hc⟩ | ⟨rfl, hm⟩
    · rw [splice_left _ _ hlt]
      refine (h.returns hc).shift (d := 0) (by omega) (by omega) (fun j hj => ?_) (fun j hj => ?_)
      · rw [Nat.zero_add, hleft (by omega)]
      · rw [Nat.zero_add, hplace (by omega)]
    · cases hm
      rw [hopener]
      refine ⟨hklt, by rw [hleft hklt, hk], ?_, ?_⟩
      · rw [hplace (Nat.le_refl _), hplace (by omega), hlast, h.finish]
        exact hr
      · intro j c hkj hj hc
        rw [hleft hj] at hc
        exact hbetween hkj hc
  · intro i j m m' hi hj hij
    rcases hsplit hi with ⟨hlt, hc⟩ | ⟨rfl, -⟩ <;> rcases hsplit hj with ⟨hlt', hc'⟩ | ⟨rfl, -⟩
    · rw [splice_left _ _ hlt, splice_left _ _ hlt'] at hij
      exact h.opener_injective hc hc' hij
    · rw [splice_left _ _ hlt, hopener] at hij
      exact absurd hij (hunused hc)
    · rw [splice_left _ _ hlt', hopener] at hij
      exact absurd hij.symm (hunused hc')
    · rfl

/-- No call is made before the place where the first is. -/
theorem consumed_le [LawfulContext σ] [CountingContext σ] (h : Replay s t cs opener place) {i : Nat} {c : Call}
    (hc : cs[i]? = some c) : Context.consumed s ≤ c.consumed := by
  obtain ⟨hlt, -⟩ := List.getElem?_eq_some_iff.1 hc
  rcases (h.makes hc).consumed_eq with heq | heq
  · rw [heq]
    exact (h.descends (by omega)).ahead.consumed_le
  · rw [heq]
    exact (h.descends (by omega)).ahead.consumed_le

end Replay

/-- Calls that are made one after another can be replayed. -/
theorem Plays.replay [LawfulContext σ] [CountingContext σ] {s t : σ} {calls : List Call} (h : Plays s calls t) :
    ∃ opener place, Replay s t calls opener place := by
  induction h with
  | nil => exact ⟨_, _, .nil⟩
  | backup | front => exact ⟨_, _, .single (fun _ => nofun) .refl ⟨rfl, rfl⟩⟩
  | popFront => exact ⟨_, _, .single (fun _ => nofun) (.pop .refl) ⟨rfl, rfl⟩⟩
  | append _ _ ih ih' =>
    obtain ⟨_, _, h⟩ := ih
    obtain ⟨_, _, h'⟩ := ih'
    exact ⟨_, _, h.append h'⟩
  | @rewind s t u cs _ hr ih =>
    obtain ⟨opener, place, h⟩ := ih
    have hst : Descends s t := h.finish ▸ h.descends (Nat.le_refl _)
    obtain rfl : u = s := LawfulContext.eq_of_restore hst hr
    have hopen : Replay u u [.backup (Context.consumed u)] id _ := .single (fun _ => nofun) .refl ⟨rfl, rfl⟩
    have hwhole := hopen.append h
    -- the place remembered by the first call is still unused
    refine ⟨_, _, hwhole.return_to (k := 0) rfl hr .refl rfl (fun _ hc => hwhole.consumed_le hc) (fun {i m} hc hzero => ?_)⟩
    cases i with
    | zero => nomatch hc
    | succ i =>
      rw [Nat.add_comm, List.length_singleton, splice_right] at hzero
      omega

end

/-! ## The cursor -/

/-- What descends from a cursor within its items is a cursor over the same items, within them. -/
theorem Cursor.eq_of_descends {ι : Type} [Item ι] {xs : Array ι} {p : Nat} {c : Cursor ι} (hp : p ≤ xs.size)
    (h : Descends (⟨xs, p⟩ : Cursor ι) c) : c.items = xs ∧ c.pos ≤ xs.size := by
  have hitems : c.items = xs := items_eq_of_descends h
  have hpos : c.pos ≤ c.items.size := h.inBounds hp
  rw [hitems] at hpos
  exact ⟨hitems, hpos⟩

/-- For every grammar and all definitions of rules. In a parse that returns, on any lawful context, each unit started at any depth
has returned, and the calls made during its parse can be replayed from the context in which it was started: each is made on a
context ahead of that one and within the input, and so is what the unit leaves; each return goes to a place that an earlier call
remembered, no call in between is made before that place, and no two returns go to the place of the same call. Over a cursor, with
every amount of fuel, no remembered place is refused, and each call is made on a cursor over the same items and within them, which
hands out the item at its position. -/
theorem rewinds_bracketed (rules : Rules) (g : Grammar) :
    (∀ {σ : Type} [Context σ] [LawfulContext σ] [CountingContext σ] {s t : σ} {o : Outcome Value} {tr : Trace} {fuel : Nat},
      (g.eval rules fuel).run s = .ok ⟨o, t, tr⟩ →
        ∀ {h : Grammar} {s' : σ} {before : Trace}, Reaches rules (fun _ _ => True) (.unit g) s (.unit h) s' before →
          ∃ o' t' tr' after opener place,
            Runs rules (.unit h) s' o' t' tr' ∧ tr = before ++ (tr' ++ after) ∧ Replay s' t' tr'.calls opener place ∧
              Context.inputLength s' = Context.inputLength s ∧ ∀ i ≤ tr'.calls.length, Ahead s' (place i)) ∧
    ∀ {ι : Type} [Item ι] (xs : Array ι) (p fuel : Nat), p ≤ xs.size →
      (∀ reason, (g.eval rules fuel).run (⟨xs, p⟩ : Cursor ι) ≠ .error (.badSnapshot reason)) ∧
      ∀ {o : Outcome Value} {c : Cursor ι} {tr : Trace}, (g.eval rules fuel).run (⟨xs, p⟩ : Cursor ι) = .ok ⟨o, c, tr⟩ →
        ∃ opener place, Replay (⟨xs, p⟩ : Cursor ι) c tr.calls opener place ∧
          ∀ i ≤ tr.calls.length, (place i).items = xs ∧ (place i).pos ≤ xs.size ∧
            Context.front (place i) = xs[(place i).pos]?.map Item.value ∧
            (Context.popFront (place i)).1 = xs[(place i).pos]?.map Item.value := by
  refine ⟨?_, ?_⟩
  · intro σ _ _ _ s t o tr fuel heval h s' before hreach
    have hrun : Runs rules (.unit g) s o t tr := eval_follows rules fuel g heval
    obtain ⟨o', t', tr', after, hrun', htr⟩ := hrun.of_reaches hreach
    obtain ⟨opener, place, hreplay⟩ := hrun'.plays.replay
    exact ⟨o', t', tr', after, opener, place, hrun', htr, hreplay, hreach.descends.inputLength_eq,
      fun i hi => (hreplay.descends hi).ahead⟩
  · intro ι _ xs p fuel hp
    refine ⟨fun reason hbad => ?_, fun {o c tr} heval => ?_⟩
    · rcases g.eval_ok_or_outOfFuel rules fuel (s := (⟨xs, p⟩ : Cursor ι)) hp with ⟨r, hr⟩ | hr
      · rw [hr] at hbad
        nomatch hbad
      · rw [hr] at hbad
        nomatch hbad
    · have hrun : Runs rules (.unit g) (⟨xs, p⟩ : Cursor ι) o c tr := eval_follows rules fuel g heval
      obtain ⟨opener, place, hreplay⟩ := hrun.plays.replay
      refine ⟨opener, place, hreplay, fun i hi => ?_⟩
      obtain ⟨hitems, hpos⟩ := Cursor.eq_of_descends hp (hreplay.descends hi)
      have hpeek : (place i).peek = xs[(place i).pos]? := by rw [Cursor.peek, hitems]
      refine ⟨hitems, hpos, ?_, ?_⟩
      · rw [← hpeek]
        rfl
      · rw [LawfulContext.popFront_fst, ← LawfulContext.front_eq, ← hpeek]
        rfl

/-- A cursor past the first of three letters: the pair of `a` and `c` is tried and given up, its own return first and then that of
the choice, and all letters are taken. Within the text of the other two, the pair goes back to where it was started. -/
theorem pairOrAll_rewinds :
    (∃ (c : Cursor Char) (opener : Nat → Nat) (place : Nat → Cursor Char),
      Replay (⟨#['x', 'a', 'b'], 1⟩ : Cursor Char) c [.backup 1, .backup 1, .front 1, .popFront 1, .front 2, .restore 1,
        .restore 1, .backup 1, .front 1, .popFront 1, .backup 2, .front 2, .popFront 2, .backup 3, .front 3, .restore 3]
        opener place) ∧
      ∃ (o : Outcome Value) (t : Text) (tr : Trace) (opener : Nat → Nat) (place : Nat → Text),
        Runs (fun _ => none) (.unit (.bind (.pop (· == .char 'a')) (fun _ => .pop (· == .char 'c')) [])) (Text.ofString "ab")
          o t tr ∧ Replay (Text.ofString "ab") t tr.calls opener place := by
  constructor
  · have hcalls : ((pairOrAll.eval (fun _ => none) 6).run (⟨#['x', 'a', 'b'], 1⟩ : Cursor Char)).toOption.map
        (fun r => r.trace.calls) = some [.backup 1, .backup 1, .front 1, .popFront 1, .front 2, .restore 1, .restore 1, .backup 1,
          .front 1, .popFront 1, .backup 2, .front 2, .popFront 2, .backup 3, .front 3, .restore 3] := by decide +kernel
    obtain ⟨_, c, tr, hrun, hread⟩ := Engine.exists_report hcalls
    obtain ⟨opener, place, hreplay, -⟩ :=
      ((rewinds_bracketed (fun _ => none) pairOrAll).2 #['x', 'a', 'b'] 1 6 (by decide)).2 hrun
    rw [show tr.calls = _ from hread] at hreplay
    exact ⟨c, opener, place, hreplay⟩
  · have hends : ((pairOrAll.eval (fun _ => none) 6).run (Text.ofString "ab")).toOption.map (fun _ => ()) = some () := by
      decide +kernel
    obtain ⟨_, _, _, hrun, -⟩ := Engine.exists_report hends
    obtain ⟨o, t, tr, after, opener, place, hpair, -, hreplay, -⟩ :=
      (rewinds_bracketed (fun _ => none) pairOrAll).1 hrun (.invoke .here .choose_first trivial)
    exact ⟨o, t, tr, opener, place, hpair, hreplay⟩

end Backtrack
