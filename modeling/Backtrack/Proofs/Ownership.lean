import Backtrack.Rule.Lifetime
import Mathlib.Data.Finset.Card

/-!
# Owners of rules

A rule is owned by links that are held outside the store, and by the bodies of rules in it. In a store that is kept exactly the
owned rules are alive. Giving bodies to rules and adding rules moves owners from outside into the store; a sweep, after owners
outside are gone, drops the rules that lost their last owner, round by round, until the store is kept again.
-/

namespace Backtrack.Store

variable {s t : Store} {held held' : List RuleId} {r q : RuleId}

/-! ## Cells -/

/-- A rule that was never created counts as dropped. -/
theorem cell_eq (s : Store) (r : RuleId) : s.cell r = s.cells[r]?.getD .dropped := by
  rw [cell, Array.getD_eq_getD_getElem?]

/-- A rule that is not dropped has been created. -/
theorem lt_size_of_cell_ne (h : s.cell r ≠ .dropped) : r < s.cells.size := by
  by_contra hle
  rw [cell_eq, Array.getElem?_eq_none (Nat.le_of_not_lt hle)] at h
  exact h rfl

theorem isAlive_iff : s.isAlive r = true ↔ s.cell r ≠ .dropped := by
  unfold isAlive
  cases s.cell r <;> simp

/-- The store with one cell replaced. -/
def put (s : Store) (r : RuleId) (c : Cell) : Store :=
  ⟨s.cells.setIfInBounds r c⟩

theorem cell_put_self (hr : r < s.cells.size) (c : Cell) : (s.put r c).cell r = c := by
  rw [cell_eq, put, Array.getElem?_setIfInBounds_self_of_lt hr]
  rfl

theorem cell_put_of_ne (s : Store) (c : Cell) (h : q ≠ r) : (s.put r c).cell q = s.cell q := by
  rw [cell_eq, put, Array.getElem?_setIfInBounds_ne (Ne.symm h), ← cell_eq]

@[simp] theorem size_put (s : Store) (r : RuleId) (c : Cell) : (s.put r c).cells.size = s.cells.size :=
  Array.size_setIfInBounds

/-! ## Owners -/

/-- A link held outside owns the rule, or the body of a rule does. -/
def Owned (s : Store) (held : List RuleId) (r : RuleId) : Prop :=
  r ∈ held ∨ ∃ q, r ∈ (s.cell q).owned

/-- More rules held outside own no less. -/
theorem Owned.mono (hheld : ∀ r ∈ held, r ∈ held') (h : s.Owned held r) : s.Owned held' r := by
  rcases h with h | h
  · exact .inl (hheld r h)
  · exact .inr h

/-- The list of owned rules lists the rules that are owned. -/
theorem mem_ownedFrom : r ∈ s.ownedFrom held ↔ s.Owned held r := by
  rw [ownedFrom, List.mem_append, List.mem_flatMap]
  refine or_congr_right ⟨?_, ?_⟩
  · rintro ⟨c, hc, hr⟩
    obtain ⟨q, hq⟩ := Array.mem_iff_getElem?.1 (Array.mem_toList_iff.1 hc)
    exact ⟨q, by rw [cell_eq, hq]; exact hr⟩
  · rintro ⟨q, hr⟩
    rw [cell_eq] at hr
    cases hq : s.cells[q]? with
    | none =>
      rw [hq] at hr
      nomatch hr
    | some c =>
      rw [hq] at hr
      exact ⟨c, Array.mem_toList_iff.2 (Array.mem_of_getElem? hq), hr⟩

/-- Exactly the rules that have an owner are alive. -/
def Kept (s : Store) (held : List RuleId) : Prop :=
  ∀ r, s.isAlive r = true ↔ s.Owned held r

/-- Only the rules held outside count, not how often or in which order they are. -/
theorem Kept.congr (h : s.Kept held) (hheld : ∀ r, r ∈ held ↔ r ∈ held') : s.Kept held' := by
  intro r
  rw [h r]
  exact ⟨.mono fun r => (hheld r).1, .mono fun r => (hheld r).2⟩

/-- When a cell that owns nothing is replaced, what the new cell owns is what was held outside for it. -/
theorem owned_update {c : Cell} (hr : (s.cell r).owned = []) (hself : t.cell r = c) (hother : ∀ q, q ≠ r → t.cell q = s.cell q)
    (held : List RuleId) (p : RuleId) : t.Owned held p ↔ s.Owned (held ++ c.owned) p := by
  have hcells : (∃ q, p ∈ (t.cell q).owned) ↔ p ∈ c.owned ∨ ∃ q, p ∈ (s.cell q).owned := by
    constructor
    · rintro ⟨q, hq⟩
      by_cases heq : q = r
      · rw [heq, hself] at hq
        exact .inl hq
      · rw [hother q heq] at hq
        exact .inr ⟨q, hq⟩
    · rintro (hp | ⟨q, hq⟩)
      · exact ⟨r, by rw [hself]; exact hp⟩
      · have hne : q ≠ r := by
          rintro rfl
          rw [hr] at hq
          nomatch hq
        exact ⟨q, by rw [hother q hne]; exact hq⟩
  rw [Owned, Owned, hcells, List.mem_append, or_assoc]

/-- A rule is added, with an owner outside; what its body owns was held outside before. -/
theorem Kept.add {c : Cell} (h : s.Kept (held ++ c.owned)) (hc : c ≠ .dropped) :
    (s.add c).2.Kept (held ++ [(s.add c).1.rule]) := by
  have hnone : s.cell (s.add c).1.rule = .dropped := by
    by_contra hne
    exact Nat.lt_irrefl _ (lt_size_of_cell_ne hne)
  have howned := owned_update (by rw [hnone]; rfl) (cell_add_self s c) fun q hq => cell_add_of_ne s c hq
  intro r
  rw [howned, Owned, List.append_assoc, List.mem_append, List.mem_append, List.mem_singleton]
  by_cases heq : r = (s.add c).1.rule
  · rw [heq, isAlive_iff, cell_add_self]
    simp [hc]
  · rw [isAlive_iff, cell_add_of_ne s c heq, ← isAlive_iff, h r, Owned, List.mem_append]
    simp [heq]

/-- A rule that has none is given its body; what the body owns was held outside before. -/
theorem Kept.bind {c : Cell} (h : s.Kept (held ++ c.owned)) (hc : c ≠ .dropped) (hr : s.cell r = .unbound) :
    (s.put r c).Kept held := by
  have hself : (s.put r c).cell r = c := cell_put_self (lt_size_of_cell_ne (by rw [hr]; nofun)) _
  have halive : ∀ p, (s.put r c).isAlive p = true ↔ s.isAlive p = true := by
    intro p
    rw [isAlive_iff, isAlive_iff]
    by_cases heq : p = r
    · rw [heq, hself, hr]
      simp [hc]
    · rw [cell_put_of_ne s _ heq]
  intro p
  rw [halive, h p]
  exact (owned_update (by rw [hr]; rfl) hself (fun q hq => cell_put_of_ne s _ hq) held p).symm

/-- Passing a body on does not change what it owns. -/
@[simp] theorem owned_bound_wrap (how : Wrapper) (body : Grammar) : (Cell.bound (.wrap how body)).owned = body.owned := by
  rw [Cell.owned, Grammar.owned]

/-! ## Sweeps -/

/-- Rules that are dropped are dropped, and the others are as they were. -/
theorem cell_drop (s : Store) (rules : List RuleId) (q : RuleId) :
    (s.drop rules).cell q = if q ∈ rules then .dropped else s.cell q := by
  unfold drop
  induction rules generalizing s with
  | nil => simp
  | cons r rules ih =>
    rw [List.foldl_cons, ih]
    by_cases hmem : q ∈ rules
    · simp [hmem]
    · by_cases heq : q = r
      · subst heq
        have hput : (s.put q .dropped).cell q = .dropped := by
          by_cases hlt : q < s.cells.size
          · exact cell_put_self hlt _
          · by_contra hne
            have hsize := lt_size_of_cell_ne hne
            rw [size_put] at hsize
            exact hlt hsize
        rw [if_neg hmem, if_pos List.mem_cons_self]
        exact hput
      · rw [if_neg hmem, if_neg (by simp [heq, hmem])]
        exact cell_put_of_ne s _ heq

@[simp] theorem size_drop (s : Store) (rules : List RuleId) : (s.drop rules).cells.size = s.cells.size := by
  unfold drop
  induction rules generalizing s with
  | nil => rfl
  | cons r rules ih =>
    rw [List.foldl_cons, ih]
    exact size_put s r .dropped

/-- An orphan is alive and has no owner. -/
theorem mem_orphans : r ∈ s.orphans held ↔ s.isAlive r = true ∧ ¬ s.Owned held r := by
  have hlt : s.isAlive r = true → r < s.cells.size := fun h => lt_size_of_cell_ne (isAlive_iff.1 h)
  simp only [orphans, List.mem_filter, List.mem_range, Bool.and_eq_true, Bool.not_eq_true', List.contains_eq_mem,
    decide_eq_false_iff_not, mem_ownedFrom]
  exact ⟨fun h => h.2, fun h => ⟨hlt h.1, h⟩⟩

/-- What holds of a store and is kept by dropping its orphans, while there are some, holds after a sweep. -/
theorem sweep_induction {P : Store → Prop} (hdrop : ∀ s, P s → P (s.drop (s.orphans held))) (hs : P s) : P (s.sweep held) := by
  unfold sweep
  generalize s.cells.size = n
  induction n generalizing s with
  | zero => exact hs
  | succ n ih =>
    unfold sweepFor
    split
    · exact hs
    · exact ih (hdrop s hs)

@[simp] theorem size_sweep (s : Store) (held : List RuleId) : (s.sweep held).cells.size = s.cells.size := by
  refine sweep_induction (P := fun t => t.cells.size = s.cells.size) (fun t ht => ?_) rfl
  rw [size_drop, ht]

/-- A sweep leaves a rule as it is, or drops it. -/
theorem cell_sweep (s : Store) (held : List RuleId) (r : RuleId) :
    (s.sweep held).cell r = s.cell r ∨ (s.sweep held).cell r = .dropped := by
  refine sweep_induction (P := fun t => t.cell r = s.cell r ∨ t.cell r = .dropped) (fun t ht => ?_) (.inl rfl)
  rw [cell_drop]
  by_cases hmem : r ∈ t.orphans held
  · rw [if_pos hmem]
    exact .inr rfl
  · rw [if_neg hmem]
    exact ht

/-- Rules of which each is owned from outside or by another of them outlive a sweep. -/
theorem cell_sweep_of_supported {P : RuleId → Prop} (hP : ∀ r, P r → r ∈ held ∨ ∃ q, P q ∧ r ∈ (s.cell q).owned) (hr : P r) :
    (s.sweep held).cell r = s.cell r := by
  refine sweep_induction (P := fun t => ∀ r, P r → t.cell r = s.cell r) (fun t ht r hr => ?_) (fun _ _ => rfl) r hr
  have howned : t.Owned held r := by
    rcases hP r hr with hheld | ⟨q, hq, hqr⟩
    · exact .inl hheld
    · exact .inr ⟨q, by rw [ht q hq]; exact hqr⟩
  have hmem : r ∉ t.orphans held := fun hmem => (mem_orphans.1 hmem).2 howned
  rw [cell_drop, if_neg hmem]
  exact ht r hr

/-- Every rule that has an owner is alive; some of those that have none may still be. -/
def Backed (s : Store) (held : List RuleId) : Prop :=
  ∀ r, s.Owned held r → s.isAlive r = true

/-- A store that is kept stays backed when owners outside go. -/
theorem Kept.backed (h : s.Kept held') (hheld : ∀ r ∈ held, r ∈ held') : s.Backed held :=
  fun r hr => (h r).2 (hr.mono hheld)

/-- Where the orphans are dropped, the rules that have an owner are still alive. -/
theorem Backed.drop (h : s.Backed held) : (s.drop (s.orphans held)).Backed held := by
  intro r hr
  have howned : s.Owned held r := by
    rcases hr with hr | ⟨q, hq⟩
    · exact .inl hr
    · rw [cell_drop] at hq
      split at hq
      · nomatch hq
      · exact .inr ⟨q, hq⟩
  have hmem : r ∉ s.orphans held := fun hmem => (mem_orphans.1 hmem).2 howned
  rw [isAlive_iff, cell_drop, if_neg hmem, ← isAlive_iff]
  exact h r howned

/-- Where there is no orphan left, the store is kept. -/
theorem Backed.kept (h : s.Backed held) (hnone : s.orphans held = []) : s.Kept held := by
  refine fun r => ⟨fun halive => ?_, h r⟩
  by_contra howned
  have hmem : r ∈ s.orphans held := mem_orphans.2 ⟨halive, howned⟩
  rw [hnone] at hmem
  nomatch hmem

/-- The rules that are alive. -/
def living (s : Store) : Finset RuleId :=
  (Finset.range s.cells.size).filter (s.isAlive ·)

theorem mem_living : r ∈ s.living ↔ s.isAlive r = true := by
  rw [living, Finset.mem_filter, Finset.mem_range]
  exact ⟨fun h => h.2, fun h => ⟨lt_size_of_cell_ne (isAlive_iff.1 h), h⟩⟩

/-- There are no more living rules than cells. -/
theorem card_living_le (s : Store) : s.living.card ≤ s.cells.size :=
  (Finset.card_filter_le _ _).trans (Finset.card_range _).le

/-- A round that has a rule to drop leaves fewer alive. -/
theorem card_living_drop (h : s.orphans held ≠ []) : (s.drop (s.orphans held)).living.card < s.living.card := by
  obtain ⟨r, hr⟩ := List.exists_mem_of_ne_nil _ h
  refine Finset.card_lt_card (Finset.ssubset_iff_of_subset ?_ |>.2 ⟨r, mem_living.2 (mem_orphans.1 hr).1, ?_⟩)
  · intro q hq
    rw [mem_living, isAlive_iff, cell_drop] at hq
    rw [mem_living, isAlive_iff]
    split at hq
    · exact absurd rfl hq
    · exact hq
  · rw [mem_living, isAlive_iff, cell_drop, if_pos hr]
    exact fun hne => hne rfl

/-- Rounds as many as living rules are enough, since a round that has something to drop makes up for the round that it takes. -/
theorem kept_sweepFor {n : Nat} (h : s.Backed held) (hn : s.living.card ≤ n) : (sweepFor held n s).Kept held := by
  induction n generalizing s with
  | zero =>
    refine h.kept (List.eq_nil_iff_forall_not_mem.2 fun r hr => ?_)
    have hmem : r ∈ s.living := mem_living.2 (mem_orphans.1 hr).1
    rw [Finset.card_eq_zero.1 (Nat.le_zero.1 hn)] at hmem
    nomatch hmem
  | succ n ih =>
    unfold sweepFor
    split
    · exact h.kept ‹_›
    · have hlt : (s.drop (s.orphans held)).living.card < s.living.card := card_living_drop ‹_›
      exact ih h.drop (by omega)

/-- A sweep has rounds enough to drop every rule that has no owner left. -/
theorem kept_sweep (h : s.Backed held) : (s.sweep held).Kept held :=
  kept_sweepFor h (card_living_le s)

end Backtrack.Store
