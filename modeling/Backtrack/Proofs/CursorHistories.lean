import Backtrack.Context.Bench
import Mathlib.Algebra.Group.Nat.Defs
import Mathlib.Logic.Relation

/-!
# Cursors over every history

Whatever is done on a bench, and in whatever order, each cursor stays within its own items, also where it is asked to go to a place
remembered on another cursor; and what is done with one cursor does not touch another one, nor a place that was remembered.
-/

namespace Backtrack

namespace Cursor

variable {ι : Type} {c : Cursor ι} {x : ι}

/-- What is left of a cursor starts with the item at its position. -/
theorem getElem?_remaining (c : Cursor ι) (i : Nat) : c.remaining[i]? = c.items[c.pos + i]? := by
  simp [remaining]

/-- Nothing is left exactly where there is no first item. -/
theorem remaining_eq_nil_iff_peek : c.remaining = [] ↔ c.peek = none := by
  rw [peek_eq_head?, List.head?_eq_none_iff]

/-- A cursor with a first item stands before the end of its items. -/
theorem pos_lt_size_of_peek (h : c.peek = some x) : c.pos < c.items.size := by
  obtain ⟨hlt, -⟩ := Array.getElem?_eq_some_iff.1 h
  exact hlt

/-- Within its items the position of a cursor and what is left of it make up all of them. -/
theorem pos_add_length_remaining (h : c.pos ≤ c.items.size) : c.pos + c.remaining.length = c.items.size := by
  rw [remaining, List.length_drop, Array.length_toList]
  exact Nat.add_sub_cancel' h

/-- Where the length of the items fits into a machine word, so does the position past an item. -/
theorem uaddOverflow_pos_one {w : Nat} (hw : c.items.size < 2 ^ w) (h : c.peek = some x) :
    BitVec.uaddOverflow (BitVec.ofNat w c.pos) 1#w = false := by
  have hlt := pos_lt_size_of_peek h
  have hmod : c.pos % 2 ^ w = c.pos := Nat.mod_eq_of_lt (by omega)
  have hone : 1 % 2 ^ w = 1 := Nat.mod_eq_of_lt (by omega)
  simp only [BitVec.uaddOverflow, BitVec.toNat_ofNat, hmod, hone, decide_eq_false_iff_not]
  omega

end Cursor

namespace Bench

/-! ## Steps -/

section

variable {ι : Type} {b b' : Bench ι} {c d : Nat} {s : Step} {cursor other added : Cursor ι}

/-- No cursor, and nothing remembered. -/
def empty : Bench ι :=
  ⟨#[], []⟩

/-- A cursor at the first of the items is added. -/
def place (b : Bench ι) (items : Array ι) : Bench ι :=
  { b with cursors := b.cursors.push (.ofArray items) }

/-- No cursor is past the end of its items. -/
def InBounds (b : Bench ι) : Prop :=
  ∀ cursor ∈ b.cursors, cursor.pos ≤ cursor.items.size

/-- All that a step on the cursor numbered `c` can do. -/
inductive Effect (b : Bench ι) (c : Nat) (cursor : Cursor ι) : Step → Bench ι → Prop
  | idle {s : Step} : Effect b c cursor s b
  | moves {s : Step} (pos : Nat) (hpos : pos ≤ cursor.items.size) :
      Effect b c cursor s { b with cursors := b.cursors.setIfInBounds c { cursor with pos } }
  | remembers (slot : String) : Effect b c cursor (.backup slot) { b with slots := (slot, cursor.backup) :: b.slots }
  | copies : Effect b c cursor .copy { b with cursors := b.cursors.push cursor }

theorem lt_size_of_cursor (h : b.cursors[c]? = some cursor) : c < b.cursors.size := by
  obtain ⟨hlt, -⟩ := Array.getElem?_eq_some_iff.1 h
  exact hlt

theorem cursor_push (h : b.cursors[c]? = some cursor) : (b.cursors.push added)[c]? = some cursor := by
  rw [Array.getElem?_push, if_neg (Nat.ne_of_lt (lt_size_of_cursor h)), h]

theorem cursor_set_self (h : b.cursors[c]? = some cursor) : (b.cursors.setIfInBounds c other)[c]? = some other := by
  rw [Array.getElem?_setIfInBounds_self, if_pos (lt_size_of_cursor h)]

theorem set_cursor_self (h : b.cursors[c]? = some cursor) : b.cursors.setIfInBounds c cursor = b.cursors := by
  refine Array.ext_getElem? fun d => ?_
  by_cases hd : c = d
  · subst hd
    rw [cursor_set_self h, h]
  · rw [Array.getElem?_setIfInBounds_ne hd]

/-- A cursor within its items may be added. -/
theorem InBounds.push (hb : b.InBounds) (hadded : added.pos ≤ added.items.size) :
    InBounds { b with cursors := b.cursors.push added } := by
  intro other hother
  rcases Array.mem_push.1 hother with hother | rfl
  · exact hb other hother
  · exact hadded

/-- Whatever a step does, no cursor is past the end of its items after it. -/
theorem Effect.inBounds (h : b.Effect c cursor s b') (hc : b.cursors[c]? = some cursor) (hb : b.InBounds) : b'.InBounds := by
  cases h with
  | idle | remembers => exact hb
  | moves pos hpos =>
    intro other hother
    rcases Array.mem_or_eq_of_mem_setIfInBounds hother with hother | rfl
    · exact hb other hother
    · exact hpos
  | copies => exact hb.push (hb cursor (Array.mem_of_getElem? hc))

/-- A step on another cursor leaves a cursor as it was. -/
theorem Effect.cursor_eq (h : b.Effect c cursor s b') (hne : d ≠ c) (hd : b.cursors[d]? = some other) :
    b'.cursors[d]? = some other := by
  cases h with
  | idle | remembers => exact hd
  | moves pos hpos => rw [Array.getElem?_setIfInBounds_ne hne.symm, hd]
  | copies => exact cursor_push hd

/-- A step leaves the items of its cursor as they were. -/
theorem Effect.items (h : b.Effect c cursor s b') (hc : b.cursors[c]? = some cursor) :
    ∃ moved, b'.cursors[c]? = some moved ∧ moved.items = cursor.items := by
  cases h with
  | idle | remembers => exact ⟨cursor, hc, rfl⟩
  | moves pos hpos => exact ⟨_, cursor_set_self hc, rfl⟩
  | copies => exact ⟨cursor, cursor_push hc, rfl⟩

/-- A step forgets no remembered place. -/
theorem Effect.slots (h : b.Effect c cursor s b') : b.slots <:+ b'.slots := by
  cases h with
  | idle | moves | copies => exact List.suffix_refl _
  | remembers slot => exact List.suffix_cons _ _

/-- A step that remembers no place under a name leaves the place of that name as it was. -/
theorem Effect.lookup {slot : String} (h : b.Effect c cursor s b') (hne : s ≠ .backup slot) :
    b'.slots.lookup slot = b.slots.lookup slot := by
  cases h with
  | idle | moves | copies => rfl
  | remembers slot' =>
    have hslot : (slot == slot') = false := by
      rw [beq_eq_false_iff_ne]
      rintro rfl
      exact hne rfl
    rw [List.lookup_cons, hslot]

end

section

variable {ι : Type} [DecidableEq ι] {b b' : Bench ι} {c d : Nat} {s : Step} {cursor : Cursor ι} {P : Nat → Step → Prop}

/-- An advance hands out the first item and moves the one cursor. -/
theorem step_advance (h : b.cursors[c]? = some cursor) :
    b.step c .advance =
      some (.item cursor.advance.1, cursor.advanceEvents, { b with cursors := b.cursors.setIfInBounds c cursor.advance.2 }) := by
  simp only [step, h]
  rfl

/-- A cursor goes to a remembered place if its own items reach so far, and stays otherwise. -/
theorem step_restore {slot : String} {saved : Cursor.Snapshot} (h : b.cursors[c]? = some cursor)
    (hsaved : b.slots.lookup slot = some saved) :
    b.step c (.restore slot) =
      if saved.pos ≤ cursor.items.size then
        some (.done, [], { b with cursors := b.cursors.setIfInBounds c { cursor with pos := saved.pos } })
      else some (.refused ⟨saved.pos, cursor.items.size⟩, [], b) := by
  by_cases hpos : saved.pos ≤ cursor.items.size
  · simp only [step, h, hsaved, Cursor.restore, Option.bind_eq_bind, Option.bind_some, if_pos hpos]
    rfl
  · simp only [step, h, hsaved, Cursor.restore, Option.bind_eq_bind, Option.bind_some, if_neg hpos]
    rfl

/-- Only a cursor that is there makes a step, and the step has one of the effects; at its end a cursor stays where it is. -/
theorem step_effect {answer : Answer ι} {events : List Event} (h : b.step c s = some (answer, events, b')) :
    ∃ cursor, b.cursors[c]? = some cursor ∧ b.Effect c cursor s b' := by
  cases hc : b.cursors[c]? with
  | none =>
    simp only [step, hc] at h
    nomatch h
  | some cursor =>
    refine ⟨cursor, rfl, ?_⟩
    cases s with
    | advance =>
      rw [step_advance hc] at h
      cases h
      cases hpeek : cursor.peek with
      | none =>
        rw [show cursor.advance.2 = cursor by simp only [Cursor.advance, hpeek], set_cursor_self hc]
        exact .idle
      | some x =>
        rw [show cursor.advance.2 = { cursor with pos := cursor.pos + 1 } by simp only [Cursor.advance, hpeek]]
        exact .moves _ (Cursor.pos_lt_size_of_peek hpeek)
    | restore slot =>
      cases hsaved : b.slots.lookup slot with
      | none =>
        simp only [step, hc, hsaved] at h
        nomatch h
      | some saved =>
        rw [step_restore hc hsaved] at h
        split at h
        next hpos =>
          cases h
          exact .moves _ hpos
        next =>
          cases h
          exact .idle
    | peek | describe =>
      simp only [step, hc] at h
      cases h
      exact .idle
    | backup slot =>
      simp only [step, hc] at h
      cases h
      exact .remembers slot
    | copy =>
      simp only [step, hc] at h
      cases h
      exact .copies
    | sameSnapshot slot other =>
      simp only [step, hc, Option.bind_eq_bind, Option.bind_some, Option.bind_eq_some_iff] at h
      obtain ⟨_, -, _, -, h⟩ := h
      cases h
      exact .idle
    | eq other =>
      simp only [step, hc, Option.bind_eq_bind, Option.bind_some, Option.bind_eq_some_iff] at h
      obtain ⟨_, -, h⟩ := h
      cases h
      exact .idle

/-! ## Histories -/

/-- A cursor is added, or one of the cursors makes a step of those allowed. -/
inductive Next (P : Nat → Step → Prop) (b : Bench ι) : Bench ι → Prop
  | place (items : Array ι) : Next P b (b.place items)
  | step {c : Nat} {s : Step} {answer : Answer ι} {events : List Event} {b' : Bench ι} (hallowed : P c s)
      (hstep : b.step c s = some (answer, events, b')) : Next P b b'

/-- A history of steps of those allowed leads from one bench to the other. -/
def Later (P : Nat → Step → Prop) : Bench ι → Bench ι → Prop :=
  Relation.ReflTransGen (Next P)

/-- The bench is one that a history leads to. -/
def Reachable (b : Bench ι) : Prop :=
  empty.Later (fun _ _ => True) b

/-- No cursor is past the end of its items after a step, nor after a cursor is placed. -/
theorem Next.inBounds (h : b.Next P b') (hb : b.InBounds) : b'.InBounds := by
  cases h with
  | place items => exact hb.push (Nat.zero_le _)
  | step _ hstep =>
    obtain ⟨cursor, hc, heffect⟩ := step_effect hstep
    exact heffect.inBounds hc hb

/-- At every point of every history every cursor is within its items. -/
theorem Reachable.inBounds (h : b.Reachable) : b.InBounds := by
  induction h with
  | refl => exact fun cursor hmem => absurd hmem (Array.not_mem_empty cursor)
  | tail _ hnext ih => exact hnext.inBounds ih

/-- A cursor that makes no step is as it was. -/
theorem Later.cursor_eq (h : b.Later P b') (hP : ∀ s, ¬P d s) (hd : b.cursors[d]? = some cursor) :
    b'.cursors[d]? = some cursor := by
  induction h with
  | refl => exact hd
  | tail _ hnext ih =>
    cases hnext with
    | place items => exact cursor_push ih
    | step hallowed hstep =>
      obtain ⟨_, -, heffect⟩ := step_effect hstep
      refine heffect.cursor_eq ?_ ih
      rintro rfl
      exact hP _ hallowed

/-- A cursor walks over the same items all along. -/
theorem Later.items (h : b.Later P b') (hd : b.cursors[d]? = some cursor) :
    ∃ moved, b'.cursors[d]? = some moved ∧ moved.items = cursor.items := by
  induction h with
  | refl => exact ⟨cursor, hd, rfl⟩
  | tail _ hnext ih =>
    obtain ⟨moved, hmoved, hitems⟩ := ih
    cases hnext with
    | place items => exact ⟨moved, cursor_push hmoved, hitems⟩
    | @step c _ _ _ _ _ hstep =>
      obtain ⟨acting, hc, heffect⟩ := step_effect hstep
      by_cases hdc : d = c
      · subst hdc
        obtain ⟨moved', hmoved', hitems'⟩ := heffect.items hc
        rw [hmoved] at hc
        cases hc
        exact ⟨moved', hmoved', hitems'.trans hitems⟩
      · exact ⟨moved, heffect.cursor_eq hdc hmoved, hitems⟩

/-- No place that was remembered is forgotten. -/
theorem Later.slots (h : b.Later P b') : b.slots <:+ b'.slots := by
  induction h with
  | refl => exact List.suffix_refl _
  | tail _ hnext ih =>
    cases hnext with
    | place items => exact ih
    | step _ hstep =>
      obtain ⟨_, -, heffect⟩ := step_effect hstep
      exact ih.trans heffect.slots

/-- While no other place is remembered under a name, the name stands for the same place. -/
theorem Later.lookup {slot : String} (h : b.Later P b') (hP : ∀ c, ¬P c (.backup slot)) :
    b'.slots.lookup slot = b.slots.lookup slot := by
  induction h with
  | refl => rfl
  | tail _ hnext ih =>
    cases hnext with
    | place items => exact ih
    | step hallowed hstep =>
      obtain ⟨_, -, heffect⟩ := step_effect hstep
      rw [← ih]
      refine heffect.lookup ?_
      rintro rfl
      exact hP _ hallowed

/-! ## Advancing -/

/-- However often a cursor advances, it hands out the items that are left one after the other, and nothing once there are none. -/
theorem run_advance (k : Nat) (hc : b.cursors[c]? = some cursor) :
    ∃ entries, b.run (List.replicate k (c, .advance)) = some entries ∧
      entries.map Entry.answer = (List.range k).map fun i => .item cursor.remaining[i]? := by
  induction k generalizing b cursor with
  | zero => exact ⟨[], rfl, rfl⟩
  | succ k ih =>
    have hmoved : (b.cursors.setIfInBounds c cursor.advance.2)[c]? = some cursor.advance.2 := cursor_set_self hc
    obtain ⟨entries, hrun, hanswers⟩ := @ih { b with cursors := b.cursors.setIfInBounds c cursor.advance.2 } _ hmoved
    refine ⟨⟨.item cursor.advance.1, cursor.advanceEvents, cursor.advance.2⟩ :: entries, ?_, ?_⟩
    · simp only [List.replicate_succ, run, step_advance hc, Option.bind_eq_bind, Option.bind_some, hmoved, hrun]
      rfl
    · have hrest : ∀ i, cursor.advance.2.remaining[i]? = cursor.remaining[i + 1]? := by
        intro i
        rw [Cursor.remaining_advance, List.getElem?_tail]
      rw [List.map_cons, hanswers, List.range_succ_eq_map, List.map_cons, List.map_map, Cursor.advance_fst, List.head?_eq_getElem?]
      simp only [hrest, Function.comp_def]

end

end Bench

/-- What is known of a cursor at any point of any history of a bench, whatever cursors there are, and on whichever of them the places
were remembered that it is asked to go to.

It is within its items, and what is left of it is what they hold from its position on. It is at its end exactly when nothing is left,
and exactly when there is no item to look at. Advancing hands out what is left, in order, and then nothing; and where the length of the
items fits into a machine word, so does the position past an item. The cursor goes to a remembered place if its own items reach so far;
otherwise it is refused, and all is as it was. A copy is as the cursor is. As long as the cursor itself makes no step it is as it was; it
walks over the same items all along; and a place that was remembered is not forgotten, and has its name until another one gets it. -/
theorem cursors_stay_in_bounds_and_apart {ι : Type} [DecidableEq ι] {b : Bench ι} (hb : b.Reachable) {c : Nat} {cursor : Cursor ι}
    (hc : b.cursors[c]? = some cursor) :
    (cursor.pos ≤ cursor.items.size ∧ cursor.pos + cursor.remaining.length = cursor.items.size ∧
      ∀ i, cursor.remaining[i]? = cursor.items[cursor.pos + i]?) ∧
    ((cursor.isAtEnd = true ↔ cursor.remaining = []) ∧ (cursor.remaining = [] ↔ cursor.peek = none)) ∧
    (∀ k, ∃ entries, b.run (List.replicate k (c, .advance)) = some entries ∧
      entries.map Bench.Entry.answer = (List.range k).map fun i => .item cursor.remaining[i]?) ∧
    (∀ w, cursor.items.size < 2 ^ w → ∀ x, cursor.peek = some x →
      BitVec.uaddOverflow (BitVec.ofNat w cursor.pos) 1#w = false) ∧
    (∀ slot saved, b.slots.lookup slot = some saved → b.step c (.restore slot) =
      if saved.pos ≤ cursor.items.size then
        some (.done, [], { b with cursors := b.cursors.setIfInBounds c { cursor with pos := saved.pos } })
      else some (.refused ⟨saved.pos, cursor.items.size⟩, [], b)) ∧
    b.step c .copy = some (.copied b.cursors.size, [], { b with cursors := b.cursors.push cursor }) ∧
    (∀ b', b.Later (fun d _ => d ≠ c) b' → b'.cursors[c]? = some cursor) ∧
    (∀ b', b.Later (fun _ _ => True) b' →
      (∃ moved, b'.cursors[c]? = some moved ∧ moved.items = cursor.items) ∧ b.slots <:+ b'.slots) ∧
    ∀ slot b', b.Later (fun _ s => s ≠ .backup slot) b' → b'.slots.lookup slot = b.slots.lookup slot := by
  have hpos : cursor.pos ≤ cursor.items.size := hb.inBounds cursor (Array.mem_of_getElem? hc)
  refine ⟨⟨hpos, cursor.pos_add_length_remaining hpos, cursor.getElem?_remaining⟩,
    ⟨cursor.isAtEnd_iff, Cursor.remaining_eq_nil_iff_peek⟩, fun k => Bench.run_advance k hc,
    fun w hw x hpeek => Cursor.uaddOverflow_pos_one hw hpeek, fun slot saved hsaved => Bench.step_restore hc hsaved, ?_,
    fun b' hlater => hlater.cursor_eq (fun _ hne => hne rfl) hc, fun b' hlater => ⟨hlater.items hc, hlater.slots⟩,
    fun slot b' hlater => hlater.lookup fun _ hne => hne rfl⟩
  simp only [Bench.step, hc]
  rfl

namespace Bench

/-! ### A long cursor and a short one -/

/-- A cursor over three items has taken two of them, its place was remembered as `far` and it was copied; another one is at the first
of its only item. -/
def longAndShort : Bench Nat :=
  ⟨#[⟨#[1, 2, 3], 2⟩, ⟨#[7], 0⟩, ⟨#[1, 2, 3], 2⟩], [("far", ⟨2⟩)]⟩

theorem longAndShort_reachable : longAndShort.Reachable :=
  .tail (.tail (.tail (.tail (.tail (.tail .refl (.place #[1, 2, 3])) (.place #[7])) (.step (c := 0) (s := .advance) trivial rfl))
    (.step (c := 0) (s := .advance) trivial rfl)) (.step (c := 0) (s := .backup "far") trivial rfl))
    (.step (c := 0) (s := .copy) trivial rfl)

/-- The short cursor cannot go to the place that was remembered on the long one, and the copy of the long one has one item left. -/
theorem longAndShort_in_bounds_and_apart :
    longAndShort.step 1 (.restore "far") = some (.refused ⟨2, 1⟩, [], longAndShort) ∧
      ∃ entries, longAndShort.run (List.replicate 3 (2, .advance)) = some entries ∧
        entries.map Entry.answer = [.item (some 3), .item none, .item none] := by
  obtain ⟨-, -, -, -, hrestore, -⟩ := cursors_stay_in_bounds_and_apart longAndShort_reachable (c := 1) rfl
  obtain ⟨-, -, hadvance, -⟩ := cursors_stay_in_bounds_and_apart longAndShort_reachable (c := 2) rfl
  exact ⟨hrestore "far" ⟨2⟩ (by decide), hadvance 3⟩

end Bench

end Backtrack
