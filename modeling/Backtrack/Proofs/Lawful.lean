import Backtrack.Context.Cursor
import Backtrack.Context.Suffix
import Backtrack.Proofs.Runs

/-!
# Lawful contexts

A grammar takes items from its context, remembers places and goes back to them. `Descends s t` says that `t` is what is left
of `s` when some items are taken; a context is lawful when going back from any such `t` to the place remembered at `s` gives
`s` again. Texts, slices and cursors are lawful.
-/

namespace Backtrack

/-- `t` is what is left of `s` when some items are taken. -/
inductive Descends {σ : Type} [Context σ] (s : σ) : σ → Prop where
  | refl : Descends s s
  | pop {t : σ} : Descends s t → Descends s (Context.popFront t).2

theorem Descends.trans {σ : Type} [Context σ] {s t u : σ} (h : Descends s t) (h' : Descends t u) : Descends s u := by
  induction h' with
  | refl => exact h
  | pop _ ih => exact .pop ih

/-- A context whose calls agree with its view of the items that are left, and which goes back to where it was. -/
class LawfulContext (σ : Type) [Context σ] where
  /-- The place lies within the input. -/
  InBounds : σ → Prop
  inBounds_popFront {s : σ} : InBounds s → InBounds (Context.popFront s).2
  /-- Going back undoes all that was taken since. -/
  eq_of_restore {s t u : σ} : Descends s t → Context.restore t (Context.backup s) = .ok u → u = s
  /-- A place within the input is not refused. -/
  restore_accepted {s t : σ} : InBounds s → Descends s t → ∃ u, Context.restore t (Context.backup s) = .ok u
  front_eq (s : σ) : Context.front s = (Context.remaining s).head?
  popFront_fst (s : σ) : (Context.popFront s).1 = (Context.remaining s).head?
  remaining_popFront (s : σ) : Context.remaining (Context.popFront s).2 = (Context.remaining s).tail

open LawfulContext (InBounds)

/-! ## Suffixes and cursors -/

instance {ι : Type} [Item ι] : LawfulContext (Suffix ι) where
  InBounds _ := True
  inBounds_popFront _ := trivial
  eq_of_restore _ h := (Except.ok.inj h).symm
  restore_accepted _ _ := ⟨_, rfl⟩
  front_eq s := by simp [Context.front, Context.remaining]
  popFront_fst s := by simp [Context.popFront, Context.remaining, Suffix.popFront_fst]
  remaining_popFront s := by simp [Context.popFront, Context.remaining, Suffix.rest_popFront]

namespace Cursor

variable {ι : Type}

/-- A move changes the position only. -/
theorem items_advance (c : Cursor ι) : c.advance.2.items = c.items := by
  unfold advance
  split <;> rfl

/-- A move does not go beyond the end of the items. -/
theorem pos_advance_le {c : Cursor ι} (h : c.pos ≤ c.items.size) : c.advance.2.pos ≤ c.items.size := by
  unfold advance
  split
  · exact h
  · next x hx =>
    obtain ⟨hlt, -⟩ := Array.getElem?_eq_some_iff.1 hx
    exact hlt

/-- Going to a remembered position changes the position only. -/
theorem eq_of_restore_eq_ok {c d : Cursor ι} {saved : Snapshot} (h : c.restore saved = .ok d) : d = ⟨c.items, saved.pos⟩ := by
  unfold restore at h
  by_cases hpos : saved.pos ≤ c.items.size
  · rw [if_pos hpos] at h
    exact (Except.ok.inj h).symm
  · rw [if_neg hpos] at h
    nomatch h

/-- What descends from a cursor walks over the same items. -/
theorem items_eq_of_descends [Item ι] {c d : Cursor ι} (h : Descends c d) : d.items = c.items := by
  induction h with
  | refl => rfl
  | pop _ ih => exact (items_advance _).trans ih

end Cursor

instance {ι : Type} [Item ι] : LawfulContext (Cursor ι) where
  InBounds c := c.pos ≤ c.items.size
  inBounds_popFront {c} h := by
    have hpos := Cursor.pos_advance_le h
    rw [← Cursor.items_advance c] at hpos
    exact hpos
  eq_of_restore {c d u} hd h := by
    rw [Cursor.eq_of_restore_eq_ok h, Cursor.items_eq_of_descends hd]
    rfl
  restore_accepted {c d} hc hd := ⟨c, Cursor.restore_backup (Cursor.items_eq_of_descends hd) hc⟩
  front_eq c := by simp [Context.front, Context.remaining, Cursor.peek_eq_head?]
  popFront_fst c := by simp [Context.popFront, Context.remaining, Cursor.advance_fst]
  remaining_popFront c := by simp [Context.popFront, Context.remaining, Cursor.remaining_advance]

/-- Taking an item is one call, and what the context reports of it. -/
theorem Engine.run_popFront {σ : Type} [Context σ] (s : σ) :
    (Engine.popFront : Engine σ _).run s = .ok ⟨(Context.popFront s).1, (Context.popFront s).2,
      .ofList (.call (.popFront (Context.consumed s)) :: (Context.popEvents s).map .event)⟩ := rfl

/-- An action only takes items. -/
theorem Action.descends {σ α : Type} [Context σ] {f : Action α} {s t : σ} {a : α} {tr : Trace} (h : f.run.run s = .ok ⟨a, t, tr⟩) :
    Descends s t := by
  induction f generalizing s tr with
  | done a =>
    obtain ⟨-, rfl, -⟩ := Engine.run_pure_eq_ok.1 h
    exact .refl
  | front k ih | remaining k ih =>
    obtain ⟨item, s', tr₁, hcall, tr₂, hrest, -⟩ := Engine.run_bind_eq_ok.1 h
    cases hcall
    exact ih _ hrest
  | popFront k ih =>
    obtain ⟨item, s', tr₁, hcall, tr₂, hrest, -⟩ := Engine.run_bind_eq_ok.1 h
    cases hcall
    exact (Descends.pop .refl).trans (ih _ hrest)

variable {σ : Type} [Context σ] [LawfulContext σ]

/-- Taking items does not lead out of the input. -/
theorem Descends.inBounds {s t : σ} (h : Descends s t) (hs : InBounds s) : InBounds t := by
  induction h with
  | refl => exact hs
  | pop _ ih => exact LawfulContext.inBounds_popFront ih

/-- Within the input, going back gives the remembered context. -/
theorem LawfulContext.restore_backup {s t : σ} (hs : InBounds s) (h : Descends s t) :
    Context.restore t (Context.backup s) = .ok s := by
  obtain ⟨u, hu⟩ := restore_accepted hs h
  rw [hu, eq_of_restore h hu]

/-! ## The predicate leaf -/

namespace Parser

/-- An item that satisfies the predicate is taken. -/
theorem run_pop_match {pred : Value → Bool} {s : σ} {v : Value} {vs : List Value} (hs : Context.remaining s = v :: vs)
    (hv : pred v = true) : ∃ tr, (pop pred).run s = .ok ⟨.matched v, (Context.popFront s).2, tr⟩ := by
  have hfront : Context.front s = some v := by rw [LawfulContext.front_eq, hs]; rfl
  have hpop : (Context.popFront s).1 = some v := by rw [LawfulContext.popFront_fst, hs]; rfl
  simp only [pop, Engine.run_bind, Engine.run_front, hfront, hv, if_true, Engine.run_popFront, hpop, Engine.run_pure,
    Outcome.ofOption]
  exact ⟨_, rfl⟩

/-- An item that does not satisfy the predicate, or the end of the input, is left in place. -/
theorem run_pop_miss {pred : Value → Bool} {s : σ} (hs : ∀ v, (Context.remaining s).head? = some v → pred v = false) :
    ∃ tr, (pop pred).run s = .ok ⟨.soft, s, tr⟩ := by
  rw [← LawfulContext.front_eq] at hs
  cases hfront : Context.front s with
  | none =>
    simp only [pop, Engine.run_bind, Engine.run_front, hfront, Engine.run_pure]
    exact ⟨_, rfl⟩
  | some v =>
    simp only [pop, Engine.run_bind, Engine.run_front, hfront, hs v hfront, Engine.run_pure, Bool.false_eq_true, if_false]
    exact ⟨_, rfl⟩

/-- What the predicate leaf does: it takes the first item, if there is one that satisfies the predicate, and otherwise fails
softly and takes nothing. -/
theorem run_pop_cases {pred : Value → Bool} {s t : σ} {o : Outcome Value} {tr : Trace}
    (h : (pop pred).run s = .ok ⟨o, t, tr⟩) :
    (∃ v vs, Context.remaining s = v :: vs ∧ pred v = true ∧ o = .matched v ∧ t = (Context.popFront s).2) ∨
      (∀ v, (Context.remaining s).head? = some v → pred v = false) ∧ o = .soft ∧ t = s := by
  by_cases hs : ∀ v, (Context.remaining s).head? = some v → pred v = false
  · obtain ⟨tr', h'⟩ := run_pop_miss hs
    rw [h] at h'
    cases h'
    exact .inr ⟨hs, rfl, rfl⟩
  · obtain ⟨v, hv, hpred⟩ : ∃ v, (Context.remaining s).head? = some v ∧ pred v = true := by simpa using hs
    obtain ⟨vs, hvs⟩ := List.head?_eq_some_iff.1 hv
    obtain ⟨tr', h'⟩ := run_pop_match hvs hpred
    rw [h] at h'
    cases h'
    exact .inl ⟨v, vs, hvs, hpred, rfl, rfl⟩

end Parser

/-! ## Every run stays among the descendants -/

/-- Every run leaves a descendant of the context it started from. -/
theorem Runs.descends {rules : Rules} {job : Job} {s t : σ} {o : Outcome Value} {tr : Trace} (h : Runs rules job s o t tr) :
    Descends s t := by
  induction h with
  | pop h =>
    rcases Parser.run_pop_cases h with ⟨_, _, _, _, _, rfl⟩ | ⟨_, _, rfl⟩
    · exact .pop .refl
    · exact .refl
  | apply h => exact Action.descends h
  | candidates_none | link_unbound => exact .refl
  | oneOf _ ih | rescue_primary _ ih | maybe_present _ ih | maybe_hard _ ih | maybeThen_stop _ ih | turns_hard _ ih
  | oneOrMany_none _ ih | oneOrMany_some _ ih | oneOrMany_hard _ ih | zeroOrMany_some _ ih | zeroOrMany_hard _ ih
  | map_match _ ih | wrap _ ih => exact ih
  | seq_stop _ _ ih | bind_stop _ _ ih | choose_first _ _ ih | candidates_here _ _ ih | map_stop _ _ ih
  | transform_stop _ _ ih | link _ _ ih => exact ih
  | seq_match _ _ ih₁ ih₂ | seq_hard _ _ ih₁ ih₂ | maybeThen_match _ _ ih₁ ih₂ | maybeThen_hard _ _ ih₁ ih₂
  | maybeThen_absent _ _ ih₁ ih₂ | turns_more _ _ ih₁ ih₂ | turns_more_hard _ _ ih₁ ih₂ => exact ih₁.trans ih₂
  | bind_go _ _ _ ih₁ ih₂ => exact ih₁.trans ih₂
  | seq_escalate _ _ hf ih₁ ih₂ | maybeThen_escalate _ _ hf ih₁ ih₂ => exact (ih₁.trans ih₂).trans (Action.descends hf)
  | transform_match _ hf ih | transform_hard _ hf ih => exact ih.trans (Action.descends hf)
  | bind_back _ _ hr ih₁ ih₂ =>
    rw [LawfulContext.eq_of_restore (ih₁.trans ih₂) hr]
    exact .refl
  | maybe_absent _ hr ih | turns_stop _ hr ih =>
    rw [LawfulContext.eq_of_restore ih hr]
    exact .refl
  | choose_second _ hr _ ih₁ ih₂ | candidates_next _ hr _ ih₁ ih₂ | rescue_missed _ hr _ ih₁ ih₂
  | rescue_recover _ hr _ ih₁ ih₂ =>
    rw [LawfulContext.eq_of_restore ih₁ hr] at ih₂
    exact ih₂

end Backtrack
