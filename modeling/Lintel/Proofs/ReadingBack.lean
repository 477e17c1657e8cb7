import Lintel.Proofs.Exchanges
import Lintel.Proofs.ParsingEnds

namespace Lintel.Grammar

/-- Items in parentheses and what comes behind, and the expression that is read from them. -/
structure Enclosed where
  opening : Item
  within : List Item
  closing : Item
  behind : List Item
  node : Tree
  filled : within ≠ []

namespace Enclosed

variable (e : Enclosed)

def whole : Exchange where
  old := e.opening :: (e.within ++ e.closing :: e.behind)
  new := e.within ++ e.behind
  outer := .node .parenExpr [.leaf e.opening.toToken, e.node, .leaf e.closing.toToken]
  inner := e.node

def part : Exchange :=
  { e.whole with old := e.closing :: e.behind, new := e.behind }

def plain : Exchange :=
  { e.whole with old := [], new := [] }

def inside (s : State) : State :=
  { s with rest := e.within ++ e.closing :: e.behind }

/-- One run has read the parentheses and the other what is in them, and each has built its tree. -/
def meets (s t u : State) : Bool :=
  t.rest.length == e.behind.length && u.rest.length == e.part.old.length &&
    Tree.sameAll t.bare (s.bare ++ [e.whole.outer]) && Tree.sameAll u.bare (s.bare ++ [e.whole.inner])

def crossWhole (n : Nat) (g : Symbol) (s : State) : Option State :=
  (e.plain.runAlone rule n g s).bind fun t => (e.part.runAlone rule n g (e.inside s)).bind fun u =>
    if e.meets s t u then some t else none

/-- The parentheses come first in a loop; without them the loop begins with what is in them, and goes on behind. -/
def crossFirst (n : Nat) : Rule → State → Option State
  | .seq (.call g) (.loop c a), s =>
    (e.plain.runAlone rule n g s).bind fun t => (e.part.runAlone rule n g (e.inside s)).bind fun u =>
      (e.part.repeatUntil c (e.part.run (e.part.runAlone rule n) a) (u.rest.length + 1) u).bind fun v =>
        if e.meets s t v then e.whole.repeatWhile c (e.whole.run (e.whole.runAlone rule n) a) (t.rest.length + 1) t
        else none
  | .scope a, s => (crossFirst n a { s with built := [] }).map fun t => { t with built := t.built ++ .gap :: s.built }
  | _, _ => none

def cross (n : Nat) (g : Symbol) (s : State) : Option State :=
  if s.rest.length = e.whole.old.length then (e.crossWhole (n + 1) g s).or (e.crossFirst n (rule g) s) else none

/-- The reading of an input can be followed with the parentheses left out. -/
def follows (front : List Item) : Bool :=
  (e.whole.runNamed rule e.cross (depth (front ++ e.whole.old)) .compilationUnit
    { rest := front ++ e.whole.old }).isSome

variable {e}

theorem start_of_mirrors {k : Option Nat} {s s' : State} (h : e.whole.Mirrors k s s')
    (hlen : s.rest.length = e.whole.old.length) :
    s.rest = e.whole.old ∧ k = some s.shown.length ∧ s.complaints = [] ∧ s' = { s with rest := e.whole.new } := by
  cases h with
  | behind hold => exact absurd hlen hold.ne
  | @ahead i s x hx hclean hi =>
    obtain rfl : x = [] := by
      rw [hx, List.length_append] at hlen
      exact List.length_eq_zero_iff.mp (by omega)
    exact ⟨hx, congrArg some hi, hclean, rfl⟩

theorem mirrors_of_meets {s t u u' : State} {k : Option Nat} (hs : s.rest = e.whole.old) (ht : s.Advances t)
    (hu : (e.inside s).Advances u) (hmirrors : e.part.Mirrors k u u') (h : e.meets s t u = true) :
    e.whole.Mirrors (some s.shown.length) t u' := by
  simp only [meets, Bool.and_eq_true, beq_iff_eq] at h
  obtain ⟨⟨⟨hlen, hlen'⟩, hbare⟩, hbare'⟩ := h
  cases hmirrors with
  | behind hold => exact absurd hlen' hold.ne
  | @ahead _ u y hy hclean _ =>
    obtain rfl : y = [] := by
      rw [hy, List.length_append] at hlen'
      exact List.length_eq_zero_iff.mp (by omega)
    obtain ⟨hq, -, is, -, hrest, -⟩ := ht
    have hbehind : t.rest = e.behind := by
      have hsplit : (e.opening :: (e.within ++ [e.closing])) ++ e.behind = is ++ t.rest := by
        rw [← hrest, hs]
        simp [whole]
      exact (List.append_inj_right' hsplit hlen.symm).symm
    have hpos := List.length_pos_iff.mpr e.filled
    refine .behind ?_ ?_ ?_ hclean ⟨s.bare, [], [], Tree.eq_of_sameAll _ _ hbare, Tree.eq_of_sameAll _ _ hbare', ?_⟩
    · simp only [hlen, whole, List.length_cons, List.length_append]
      omega
    · simp only [hlen, whole, List.length_append]
      omega
    · rw [View.mk.injEq]
      exact ⟨hbehind.symm, hu.1.trans hq.symm⟩
    · rw [show Tree.tokensAll s.bare = s.shown from Outline.tokensAll_bareAll _]
      rfl

section Cross

variable {n : Nat} {s t : State} (hlen : s.rest.length = e.whole.old.length)

theorem runs_plain {g : Symbol} (hclean : s.complaints = []) (h : e.plain.runAlone rule n g s = some t) :
    Runs rule n (.call g) s t :=
  (Exchange.doubles_runAlone h (.ahead s.rest (by simp [plain]) hclean rfl)).1

theorem mirrors_inside (hclean : s.complaints = []) :
    e.part.Mirrors (some (s.shown.length + e.within.length)) (e.inside s) { s with rest := e.whole.new } :=
  .ahead e.within rfl hclean rfl

include hlen

theorem doubles_crossWhole {g : Symbol} (h : e.crossWhole n g s = some t) : e.whole.Doubles rule n (.call g) s t := by
  intro k s' hs
  obtain ⟨hrest, rfl, hclean, rfl⟩ := start_of_mirrors hs hlen
  obtain ⟨v, hv, h⟩ := Option.bind_eq_some_iff.mp h
  obtain ⟨u, hu, h⟩ := Option.bind_eq_some_iff.mp h
  obtain ⟨hmeets, h⟩ := Option.ite_none_right_eq_some.mp h
  obtain rfl := Option.some.inj h
  have hrun := runs_plain hclean hv
  obtain ⟨hin, u', hrun', hmirrors⟩ := Exchange.doubles_runAlone hu (mirrors_inside hclean)
  exact ⟨hrun, u', hrun', mirrors_of_meets hrest hrun.advances hin.advances hmirrors hmeets⟩

theorem doubles_crossFirst (a : Rule) (h : e.crossFirst n a s = some t) : e.whole.Doubles rule n a s t := by
  fun_induction crossFirst e n a s generalizing t with
  | case1 g c a s =>
    intro k s' hs
    obtain ⟨hrest, rfl, hclean, rfl⟩ := start_of_mirrors hs hlen
    obtain ⟨v, hv, h⟩ := Option.bind_eq_some_iff.mp h
    obtain ⟨u, hu, h⟩ := Option.bind_eq_some_iff.mp h
    obtain ⟨w, hw, h⟩ := Option.bind_eq_some_iff.mp h
    obtain ⟨hmeets, h⟩ := Option.ite_none_right_eq_some.mp h
    have hrun := runs_plain hclean hv
    obtain ⟨hin, u', hrun', hmirrors⟩ := Exchange.doubles_runAlone hu (mirrors_inside hclean)
    obtain ⟨hadv, w', hmirrors, hloop⟩ := Exchange.exists_of_repeatUntil
      (fun s t => Exchange.doubles_run (fun g s t => Exchange.doubles_runAlone) a) _ hw hmirrors
    have hmet := mirrors_of_meets hrest hrun.advances (State.steady_advances.trans hin.advances hadv) hmirrors hmeets
    obtain ⟨hrest, t', hrest', ht⟩ := Exchange.doubles_repeatWhile
      (fun s t => Exchange.doubles_run (fun g s t => Exchange.doubles_runAlone) a) _ h hmet
    exact ⟨.seq hrun hrest, t', .seq hrun' (hloop t' hrest'), ht⟩
  | case2 a s ih =>
    obtain ⟨u, hu, rfl⟩ := Option.map_eq_some_iff.mp h
    exact Exchange.doubles_scope (ih hlen hu)
  | case3 => cases h

omit hlen in
theorem doubles_cross {g : Symbol} (h : e.cross n g s = some t) : e.whole.Doubles rule (n + 1) (.call g) s t := by
  obtain ⟨hlen, h⟩ := Option.ite_none_right_eq_some.mp h
  obtain h | ⟨-, h⟩ := Option.or_eq_some_iff.mp h
  · exact doubles_crossWhole hlen h
  · intro k s' hs
    obtain ⟨hrun, t', hrun', ht⟩ := doubles_crossFirst hlen (rule g) h hs
    exact ⟨.call hrun, t', .call hrun', ht⟩

end Cross

theorem outline_of_follows {front : List Item} (h : e.follows front = true) :
    (outline (front ++ e.whole.new)).2 = [] ∧ e.whole.Unwrapped front.length
      (Outline.bareAll (outline (front ++ e.whole.old)).1) (Outline.bareAll (outline (front ++ e.whole.new)).1) := by
  obtain ⟨t, ht⟩ := Option.isSome_iff_exists.mp h
  obtain ⟨hrun, t', hrun', hmirrors⟩ := Exchange.doubles_runNamed (fun n g s t => doubles_cross) _ _ ht
    (.ahead front rfl rfl rfl)
  have hrest := rest_outline (front ++ e.whole.old)
  rw [← hrun.deterministic (ends_outline _)] at hrest
  rw [outline, outline, ← hrun.deterministic (ends_outline _), ← hrun'.deterministic (ends_outline _)]
  cases hmirrors with
  | ahead y hy =>
    rw [hrest] at hy
    simp [whole] at hy
  | behind _ _ _ hclean hdiffers =>
    refine ⟨by simp [hclean], ?_⟩
    simpa [State.shown, Outline.tokensAll, State.bare, Exchange.Differs] using hdiffers

end Enclosed

end Lintel.Grammar
