import Backtrack.Proofs.Invocations
import Backtrack.Proofs.SoftFailure

/-!
# Alternation flattens

However alternations are nested, the leaves are tried from left to right, each in the context in which the whole was started, and
the first that does not fail softly decides. So a tree of alternations ends as the one alternation over its leaves does. Recovering
units nest in the same way, except that they also go on after a hard failure, and that the last leaf decides if none matches.
-/

namespace Backtrack

open LawfulContext (InBounds)

namespace Grammar

/-- `Alternates g leaves`: the unit is a tree of alternations whose leaves, from left to right, are `leaves`. A subtree may be passed
on by wrappers, as one that is erased to stand among other candidates is. -/
inductive Alternates : Grammar → List Grammar → Prop where
  | leaf (g : Grammar) : Alternates g [g]
  | choose {a b : Grammar} {gs hs : List Grammar} :
      Alternates a gs → Alternates b hs → Alternates (.choose a b) (gs ++ hs)
  | oneOf_nil : Alternates (.oneOf []) []
  | oneOf_cons {a : Grammar} {as gs hs : List Grammar} :
      Alternates a gs → Alternates (.oneOf as) hs → Alternates (.oneOf (a :: as)) (gs ++ hs)
  | wrap {a : Grammar} {gs : List Grammar} (how : Wrapper) : Alternates a gs → Alternates (.wrap how a) gs

/-- `Recovers g leaves`: the unit is a tree of recovering units whose leaves, from left to right, are `leaves`; a subtree may be
passed on by wrappers. -/
inductive Recovers : Grammar → List Grammar → Prop where
  | leaf (g : Grammar) : Recovers g [g]
  | rescue {a b : Grammar} {gs hs : List Grammar} : Recovers a gs → Recovers b hs → Recovers (.rescue a b) (gs ++ hs)
  | wrap {a : Grammar} {gs : List Grammar} (how : Wrapper) : Recovers a gs → Recovers (.wrap how a) gs

end Grammar

/-! ## Units tried one after the other -/

section

variable {σ : Type} [Context σ] {rules : Rules} {s t : σ} {o : Outcome Value} {a b a' b' g g' : Grammar} {gs hs : List Grammar}

namespace Grammar

/-- In the context `s` the unit `g` ends as `a` does, unless that fails softly; then it ends as `b` does, also started in `s`. -/
def Tries (rules : Rules) (s : σ) (g a b : Grammar) : Prop :=
  ∀ o t, g.Yields rules s o t ↔
    a.Yields rules s o t ∧ o.isSoft = false ∨ (∃ t', a.Yields rules s .soft t') ∧ b.Yields rules s o t

/-- A unit that tries two others fails softly where both do, and leaves what the second leaves. -/
theorem Tries.missed (h : Tries rules s g a b) :
    g.Yields rules s .soft t ↔ (∃ t', a.Yields rules s .soft t') ∧ b.Yields rules s .soft t := by
  rw [h .soft t, or_iff_right]
  rintro ⟨-, ho⟩
  nomatch ho

/-- An alternation without candidates fails softly. -/
theorem yields_oneOf_nil : (oneOf []).Yields rules s o t ↔ o = .soft ∧ t = s := by
  rw [yields_iff_runs]
  constructor
  · rintro ⟨_, hrun⟩
    cases hrun with
    | oneOf hrun =>
      cases hrun
      exact ⟨rfl, rfl⟩
  · rintro ⟨rfl, rfl⟩
    exact ⟨_, .oneOf .candidates_none⟩

/-- A unit that passes another one on ends as that one does. -/
theorem yields_wrap {how : Wrapper} : (wrap how g).Yields rules s o t ↔ g.Yields rules s o t := by
  simp only [yields_iff_runs]
  constructor
  · rintro ⟨_, hrun⟩
    cases hrun with
    | wrap hg => exact ⟨_, hg⟩
  · rintro ⟨_, hg⟩
    exact ⟨_, .wrap hg⟩

/-- Units that end alike in the context, except for what they leave of it when they fail softly. -/
structure Alike (rules : Rules) (s : σ) (g g' : Grammar) : Prop where
  decided {o : Outcome Value} {t : σ} : o.isSoft = false → (g.Yields rules s o t ↔ g'.Yields rules s o t)
  missed : (∃ t, g.Yields rules s .soft t) ↔ ∃ t, g'.Yields rules s .soft t

/-- Units that are alike end in the same match or hard failure and leave the same context. -/
theorem Alike.yields_iff (h : Alike rules s g g') (ho : o ≠ .soft) : g.Yields rules s o t ↔ g'.Yields rules s o t := by
  refine h.decided ?_
  cases o with
  | matched | hard => rfl
  | soft => exact absurd rfl ho

/-- Units that are alike have the same outcome. -/
theorem Alike.outcome_iff (h : Alike rules s g g') : (∃ t, g.Yields rules s o t) ↔ ∃ t, g'.Yields rules s o t := by
  by_cases ho : o = .soft
  · rw [ho]
    exact h.missed
  · simp only [h.yields_iff ho]

/-- A unit that is passed on by a wrapper is still like those that it was like. -/
theorem Alike.wrap (h : Alike rules s g g') {how : Wrapper} : Alike rules s (.wrap how g) g' where
  decided ho := by rw [yields_wrap, h.decided ho]
  missed := by simp only [yields_wrap, h.missed]

/-- Units that try units that are alike are alike themselves. -/
theorem Alike.of_tries (ha : Alike rules s a a') (hb : Alike rules s b b') (hg : Tries rules s g a b)
    (hg' : Tries rules s g' a' b') : Alike rules s g g' where
  decided {o t} ho := by rw [hg o t, hg' o t, ha.decided ho, ha.missed, hb.decided ho]
  missed := by simp only [hg.missed, hg'.missed, exists_and_left, ha.missed, hb.missed]

/-- Tried one after the other, each in the context `s`, the units end in `o` and leave `t`: as the first of them that matches, or if
none does, as the last. -/
def FirstMatch (rules : Rules) (gs : List Grammar) (s : σ) (o : Outcome Value) (t : σ) : Prop :=
  ∃ before g after, gs = before ++ g :: after ∧
    (∀ h ∈ before, ∃ o' t', h.Yields rules s o' t' ∧ o'.isMatch = false) ∧
    g.Yields rules s o t ∧ (o.isMatch = true ∨ after = [])

/-- Where the units of a list end without a match, all of them do. -/
theorem FirstMatch.all_fail (h : FirstMatch rules gs s o t) (ho : o.isMatch = false) :
    ∀ g ∈ gs, ∃ o' t', g.Yields rules s o' t' ∧ o'.isMatch = false := by
  obtain ⟨before, last, after, rfl, hbefore, hlast, hend⟩ := h
  obtain rfl : after = [] := hend.resolve_left (by simp [ho])
  intro g hg
  rcases List.mem_append.1 hg with hg | hg
  · exact hbefore g hg
  · obtain rfl := List.mem_singleton.1 hg
    exact ⟨o, t, hlast, ho⟩

/-- Where all units of a list end without a match, the list ends as the last of them. -/
theorem exists_firstMatch_of_all_fail (hne : gs ≠ []) (h : ∀ g ∈ gs, ∃ o' t', g.Yields rules s o' t' ∧ o'.isMatch = false) :
    ∃ o t, FirstMatch rules gs s o t ∧ o.isMatch = false := by
  obtain ⟨before, last, rfl⟩ := (List.eq_nil_or_concat gs).resolve_left hne
  obtain ⟨o, t, hlast, ho⟩ := h last (by simp)
  refine ⟨o, t, ⟨before, last, [], by simp, fun g hg => h g (by simp [hg]), hlast, .inr rfl⟩, ho⟩

/-- A single unit decides by itself. -/
theorem firstMatch_singleton : FirstMatch rules [g] s o t ↔ g.Yields rules s o t := by
  constructor
  · rintro ⟨before, g', after, hgs, -, hg', -⟩
    obtain ⟨rfl, hgs⟩ := (List.cons_eq_append_iff.1 hgs).resolve_right fun ⟨_, _, h⟩ => by simp at h
    cases hgs
    exact hg'
  · exact fun hg => ⟨[], g, [], rfl, nofun, hg, .inr rfl⟩

/-- The units of two lists are tried one list after the other: the unit that decides stands in the first list and matches, or else none
of the first list does. -/
theorem firstMatch_append (hne : gs ≠ []) (hne' : hs ≠ []) :
    FirstMatch rules (gs ++ hs) s o t ↔
      FirstMatch rules gs s o t ∧ o.isMatch = true ∨
        (∃ o' t', FirstMatch rules gs s o' t' ∧ o'.isMatch = false) ∧ FirstMatch rules hs s o t := by
  constructor
  · rintro ⟨before, g, after, hsplit, hbefore, hg, hend⟩
    rcases List.append_eq_append_iff.1 hsplit with ⟨mid, rfl, hmid⟩ | ⟨mid, rfl, hmid⟩
    · refine .inr ⟨exists_firstMatch_of_all_fail hne fun h hh => hbefore h (List.mem_append_left _ hh), ?_⟩
      exact ⟨mid, g, after, hmid, fun h hh => hbefore h (List.mem_append_right _ hh), hg, hend⟩
    · cases mid with
      | nil =>
        rw [List.append_nil] at hne ⊢
        exact .inr ⟨exists_firstMatch_of_all_fail hne hbefore, [], g, after, hmid.symm, nofun, hg, hend⟩
      | cons _ rest =>
        obtain ⟨rfl, rfl⟩ := List.cons.inj hmid
        have ho : o.isMatch = true := hend.resolve_right fun hnil => hne' (List.append_eq_nil_iff.1 hnil).2
        exact .inl ⟨⟨before, g, rest, rfl, hbefore, hg, .inl ho⟩, ho⟩
  · rintro (⟨⟨before, g, after, rfl, hbefore, hg, -⟩, ho⟩ | ⟨⟨o', t', hgs, ho'⟩, before, g, after, rfl, hbefore, hg, hend⟩)
    · exact ⟨before, g, after ++ hs, by simp, hbefore, hg, .inl ho⟩
    · refine ⟨gs ++ before, g, after, by simp, fun h hh => ?_, hg, hend⟩
      rcases List.mem_append.1 hh with hh | hh
      · exact hgs.all_fail ho' h hh
      · exact hbefore h hh

end Grammar

end

section

variable {σ : Type} [Context σ] [LawfulContext σ] {rules : Rules} {s t : σ} {o : Outcome Value} {a b g : Grammar}
  {gs hs : List Grammar}

namespace Grammar

/-! ## One node -/

/-- A choice tries its second unit where the first one fails softly. -/
theorem tries_choose (hin : InBounds s) : Tries rules s (.choose a b) a b := by
  intro o t
  simp only [yields_iff_runs]
  constructor
  · rintro ⟨_, hrun⟩
    cases hrun with
    | choose_first ha ho => exact .inl ⟨⟨_, ha⟩, ho⟩
    | choose_second ha hr hb =>
      rw [LawfulContext.eq_of_restore ha.descends hr] at hb
      exact .inr ⟨⟨_, _, ha⟩, _, hb⟩
  · rintro (⟨⟨_, ha⟩, ho⟩ | ⟨⟨_, _, ha⟩, _, hb⟩)
    · exact ⟨_, .choose_first ha ho⟩
    · exact ⟨_, .choose_second ha (LawfulContext.restore_backup hin ha.descends) hb⟩

/-- An alternation tries its first candidate and then the alternation over the others. -/
theorem tries_oneOf_cons (hin : InBounds s) : Tries rules s (.oneOf (g :: gs)) g (.oneOf gs) := by
  intro o t
  simp only [yields_iff_runs]
  constructor
  · rintro ⟨_, hrun⟩
    cases hrun with
    | oneOf hrun =>
      cases hrun with
      | candidates_here hg ho => exact .inl ⟨⟨_, hg⟩, ho⟩
      | candidates_next hg hr hrest =>
        rw [LawfulContext.eq_of_restore hg.descends hr] at hrest
        obtain ⟨_, hrest⟩ := hrest.candidates_renumber 0
        exact .inr ⟨⟨_, _, hg⟩, _, .oneOf hrest⟩
  · rintro (⟨⟨_, hg⟩, ho⟩ | ⟨⟨_, _, hg⟩, _, hrun⟩)
    · exact ⟨_, .oneOf (.candidates_here hg ho)⟩
    · cases hrun with
      | oneOf hrest =>
        obtain ⟨_, hrest⟩ := hrest.candidates_renumber 1
        exact ⟨_, .oneOf (.candidates_next hg (LawfulContext.restore_backup hin hg.descends) hrest)⟩

/-- A recovering unit ends as its first part does if that matches; otherwise it ends as its second part does, started in the same
context. -/
theorem yields_rescue (hin : InBounds s) :
    (rescue a b).Yields rules s o t ↔
      a.Yields rules s o t ∧ o.isMatch = true ∨
        (∃ o' t', a.Yields rules s o' t' ∧ o'.isMatch = false) ∧ b.Yields rules s o t := by
  simp only [yields_iff_runs]
  constructor
  · rintro ⟨_, hrun⟩
    cases hrun with
    | rescue_primary ha => exact .inl ⟨⟨_, ha⟩, rfl⟩
    | rescue_missed ha hr hb =>
      rw [LawfulContext.eq_of_restore ha.descends hr] at hb
      exact .inr ⟨⟨_, _, ⟨_, ha⟩, rfl⟩, _, hb⟩
    | rescue_recover ha hr hb =>
      rw [LawfulContext.eq_of_restore ha.descends hr] at hb
      exact .inr ⟨⟨_, _, ⟨_, ha⟩, rfl⟩, _, hb⟩
  · rintro (⟨⟨_, ha⟩, ho⟩ | ⟨⟨_, _, ⟨_, ha⟩, ho⟩, _, hb⟩)
    · cases o with
      | matched => exact ⟨_, .rescue_primary ha⟩
      | soft | hard => nomatch ho
    · have hback := LawfulContext.restore_backup hin ha.descends
      rcases Outcome.isMatch_eq_false_iff.1 ho with rfl | ⟨failure, rfl⟩
      · exact ⟨_, .rescue_missed ha hback hb⟩
      · exact ⟨_, .rescue_recover ha hback hb⟩

/-! ## Trees of alternations -/

/-- An alternation gives back what its candidates took, also the last, when it fails softly. -/
theorem eq_of_yields_oneOf_soft (hin : InBounds s) (h : (oneOf gs).Yields rules s .soft t) : t = s := by
  induction gs with
  | nil => exact (yields_oneOf_nil.1 h).2
  | cons g gs ih => exact ih ((tries_oneOf_cons hin).missed.1 h).2

/-- The candidates of two lists are tried one list after the other. -/
theorem tries_oneOf_append (hin : InBounds s) : Tries rules s (.oneOf (gs ++ hs)) (.oneOf gs) (.oneOf hs) := by
  intro o t
  induction gs with
  | nil =>
    constructor
    · exact fun h => .inr ⟨⟨s, yields_oneOf_nil.2 ⟨rfl, rfl⟩⟩, h⟩
    · rintro (⟨hnone, ho⟩ | ⟨-, h⟩)
      · obtain ⟨rfl, -⟩ := yields_oneOf_nil.1 hnone
        nomatch ho
      · exact h
  | cons g gs ih =>
    rw [List.cons_append, tries_oneOf_cons hin o t, ih, tries_oneOf_cons hin o t]
    simp only [(tries_oneOf_cons hin).missed, exists_and_left]
    constructor
    · rintro (⟨hg, ho⟩ | ⟨hg, ⟨hgs, ho⟩ | ⟨hgs, hhs⟩⟩)
      · exact .inl ⟨.inl ⟨hg, ho⟩, ho⟩
      · exact .inl ⟨.inr ⟨hg, hgs⟩, ho⟩
      · exact .inr ⟨⟨hg, hgs⟩, hhs⟩
    · rintro (⟨⟨hg, -⟩ | ⟨hg, hgs⟩, ho⟩ | ⟨⟨hg, hgs⟩, hhs⟩)
      · exact .inl ⟨hg, ho⟩
      · exact .inr ⟨hg, .inl ⟨hgs, ho⟩⟩
      · exact .inr ⟨hg, .inr ⟨hgs, hhs⟩⟩

/-- One unit is like the alternation that has no other candidate. -/
theorem alike_oneOf_singleton (hin : InBounds s) : Alike rules s g (oneOf [g]) where
  decided {o t} ho := by
    rw [tries_oneOf_cons hin o t, and_iff_left ho, or_iff_left]
    rintro ⟨-, hnone⟩
    obtain ⟨rfl, -⟩ := yields_oneOf_nil.1 hnone
    nomatch ho
  missed := by simp only [(tries_oneOf_cons hin).missed, yields_oneOf_nil, exists_and_left, true_and, exists_eq, and_true]

/-- A tree of alternations is like the alternation over its leaves. -/
theorem Alternates.alike (h : g.Alternates gs) (hin : InBounds s) : Alike rules s g (oneOf gs) := by
  induction h with
  | leaf g => exact alike_oneOf_singleton hin
  | choose _ _ iha ihb => exact iha.of_tries ihb (tries_choose hin) (tries_oneOf_append hin)
  | oneOf_nil => exact ⟨fun _ => .rfl, .rfl⟩
  | oneOf_cons _ _ iha ihas => exact iha.of_tries ihas (tries_oneOf_cons hin) (tries_oneOf_append hin)
  | wrap _ _ ih => exact ih.wrap

/-- A tree of alternations gives back what its leaves took when it fails softly, if each leaf does so itself. -/
theorem Alternates.eq_of_soft (h : g.Alternates gs) (hin : InBounds s)
    (hleaves : ∀ leaf ∈ gs, ∀ t, leaf.Yields rules s .soft t → t = s) (hsoft : g.Yields rules s .soft t) : t = s := by
  induction h with
  | leaf g => exact hleaves g List.mem_cons_self t hsoft
  | choose _ _ _ ihb =>
    refine ihb (fun leaf hleaf => hleaves leaf (List.mem_append_right _ hleaf)) ?_
    exact ((tries_choose hin).missed.1 hsoft).2
  | oneOf_nil | oneOf_cons => exact eq_of_yields_oneOf_soft hin hsoft
  | wrap _ _ ih => exact ih hleaves (yields_wrap.1 hsoft)

/-! ## Trees of recovering units -/

/-- A tree of recovering units has a leaf. -/
theorem Recovers.ne_nil (h : g.Recovers gs) : gs ≠ [] := by
  induction h with
  | leaf g => simp
  | rescue _ _ ih _ => simp [ih]
  | wrap _ _ ih => exact ih

/-- A tree of recovering units ends as its leaves do, tried in order. -/
theorem Recovers.yields_iff (h : g.Recovers gs) (hin : InBounds s) :
    g.Yields rules s o t ↔ FirstMatch rules gs s o t := by
  induction h generalizing o t with
  | leaf g => exact firstMatch_singleton.symm
  | rescue ha hb iha ihb =>
    rw [yields_rescue hin, firstMatch_append ha.ne_nil hb.ne_nil]
    simp only [iha, ihb]
  | wrap _ _ ih => rw [yields_wrap, ih]

end Grammar

/-! ## Where the leaves are tried -/

/-- Jobs that try units one after the other, or pass one on. -/
def Job.Branches : Job → Nat → Prop
  | .unit (.choose ..), _ | .unit (.oneOf _), _ | .unit (.rescue ..), _ | .unit (.wrap ..), _ | .candidates .., _ => True
  | _, _ => False

/-- Whatever such jobs come to is started in the context in which they were started. -/
theorem Reaches.eq_of_branches {job job' : Job} {s' : σ} {before : Trace}
    (h : Reaches rules Job.Branches job s job' s' before) : s' = s := by
  induction h with
  | here => rfl
  | invoke _ hinv hbranches ih =>
    rw [← ih]
    cases hinv with
    | choose_first | oneOf | candidates_here | rescue_primary | wrap => rfl
    | choose_second h hr | candidates_next h hr | rescue_missed h hr | rescue_recover h hr =>
      exact LawfulContext.eq_of_restore h.descends hr
    | _ => nomatch hbranches

end

/-- A tree of alternations has the outcome of the one alternation over its leaves, and leaves the same context after a match and
after a hard failure; so it does after a soft failure, if its leaves leave the context unchanged when they fail softly. A tree of
recovering units ends as the first of its leaves that matches, or else as the last. Each leaf that is tried is started in the
context in which the tree was started, whatever the leaves before it took. -/
theorem alternation_flattens {σ : Type} [Context σ] [LawfulContext σ] (rules : Rules) {s : σ} (hin : InBounds s) :
    (∀ (g : Grammar) (leaves : List Grammar), g.Alternates leaves →
      (∀ o, (∃ t, g.Yields rules s o t) ↔ ∃ t, (Grammar.oneOf leaves).Yields rules s o t) ∧
      (∀ o t, o ≠ .soft → (g.Yields rules s o t ↔ (Grammar.oneOf leaves).Yields rules s o t)) ∧
      ((∀ leaf ∈ leaves, ∀ t, leaf.Yields rules s .soft t → t = s) →
        ∀ o t, g.Yields rules s o t ↔ (Grammar.oneOf leaves).Yields rules s o t)) ∧
    (∀ (g : Grammar) (leaves : List Grammar), g.Recovers leaves →
      ∀ o t, g.Yields rules s o t ↔ Grammar.FirstMatch rules leaves s o t) ∧
    ∀ (g leaf : Grammar) (s' : σ) (before : Trace),
      Reaches rules Job.Branches (.unit g) s (.unit leaf) s' before → s' = s := by
  refine ⟨fun g leaves htree => ?_, fun g leaves htree o t => htree.yields_iff hin, fun _ _ _ _ hreach => hreach.eq_of_branches⟩
  have halike : Grammar.Alike rules s g (.oneOf leaves) := htree.alike hin
  have hsame : ∀ o t, o ≠ .soft → (g.Yields rules s o t ↔ (Grammar.oneOf leaves).Yields rules s o t) := by
    intro o t ho
    refine halike.decided ?_
    cases o with
    | matched | hard => rfl
    | soft => exact absurd rfl ho
  refine ⟨fun o => ?_, hsame, fun hleaves o t => ?_⟩
  · by_cases ho : o = .soft
    · rw [ho]
      exact halike.missed
    · simp only [hsame o _ ho]
  · by_cases ho : o = .soft
    · subst ho
      constructor
      · intro h
        obtain ⟨t', h'⟩ := halike.missed.1 ⟨t, h⟩
        have ht : t = s := htree.eq_of_soft hin hleaves h
        have ht' : t' = s := Grammar.eq_of_yields_oneOf_soft hin h'
        rwa [ht'.trans ht.symm] at h'
      · intro h
        obtain ⟨t', h'⟩ := halike.missed.2 ⟨t, h⟩
        have ht : t = s := Grammar.eq_of_yields_oneOf_soft hin h
        have ht' : t' = s := htree.eq_of_soft hin hleaves h'
        rwa [ht'.trans ht.symm] at h'
    · exact hsame o t ho

/-! ### A careless leaf before two letters -/

/-- The leaves of the trees below: one that takes an item and fails softly, and two letters. -/
def carelessLeaves : List Grammar :=
  [carelessLeaf, .pop (· == .char 'b'), .pop (· == .char 'a')]

/-- The leaves in a tree of alternations, some of which have no or one candidate; one is erased to stand among candidates. -/
def bushyChoice : Grammar :=
  .choose (.oneOf [carelessLeaf, .wrap .erased (.oneOf [])]) (.choose (.pop (· == .char 'b')) (.oneOf [.pop (· == .char 'a')]))

/-- The leaves in a tree of recovering units. -/
def bushyRescue : Grammar :=
  .rescue (.wrap .boxed (.rescue carelessLeaf (.pop (· == .char 'b')))) (.pop (· == .char 'a'))

theorem bushyChoice_alternates : bushyChoice.Alternates carelessLeaves :=
  .choose (.oneOf_cons (.leaf _) (.oneOf_cons (.wrap _ .oneOf_nil) .oneOf_nil)) (.choose (.leaf _) (.oneOf_cons (.leaf _) .oneOf_nil))

theorem bushyRescue_recovers : bushyRescue.Recovers carelessLeaves :=
  .rescue (.wrap _ (.rescue (.leaf _) (.leaf _))) (.leaf _)

/-- Both trees find the last leaf on `ac`, as the alternation does: the item that the first leaf took is given back. -/
theorem bushyChoice_flattens :
    (Grammar.oneOf carelessLeaves).Yields (fun _ => none) (Text.ofString "ac") (.matched (.char 'a')) ⟨1, ['c']⟩ ∧
      bushyChoice.Yields (fun _ => none) (Text.ofString "ac") (.matched (.char 'a')) ⟨1, ['c']⟩ ∧
      Grammar.FirstMatch (fun _ => none) carelessLeaves (Text.ofString "ac") (.matched (.char 'a')) ⟨1, ['c']⟩ := by
  obtain ⟨hchoice, hrescue, -⟩ := alternation_flattens (fun _ => none) (s := Text.ofString "ac") trivial
  obtain ⟨-, hsame, -⟩ := hchoice bushyChoice carelessLeaves bushyChoice_alternates
  have hflat : (Grammar.oneOf carelessLeaves).Yields (fun _ => none) (Text.ofString "ac") (.matched (.char 'a')) ⟨1, ['c']⟩ :=
    Grammar.yields_of_run 10 (by decide +kernel)
  have hfound : bushyRescue.Yields (fun _ => none) (Text.ofString "ac") (.matched (.char 'a')) ⟨1, ['c']⟩ :=
    Grammar.yields_of_run 10 (by decide +kernel)
  exact ⟨hflat, (hsame _ _ (by simp)).2 hflat, (hrescue _ _ bushyRescue_recovers _ _).1 hfound⟩

end Backtrack
