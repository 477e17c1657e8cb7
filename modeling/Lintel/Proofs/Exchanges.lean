import Lintel.Proofs.Derivations
import Lintel.Proofs.ExpressionShape
import Lintel.Proofs.FaultlessText
import Lintel.Proofs.Shedding

/-!
Following a run on an input whose end is exchanged. A run is followed as long as it makes no complaint and each of its
tests has the same answer before the other end. What is followed up to the exchanged end is a run before the other end
as well; how the two ends are crossed is left open.
-/

namespace Lintel.Grammar

/-- The end of an input and the one in its place, and the trees that are read from the two. -/
structure Exchange where
  old : List Item
  new : List Item
  outer : Tree
  inner : Tree

namespace Exchange

variable {σ : Type} (e : Exchange)

def view (v : View) : View :=
  if e.old.length ≤ v.rest.length then { v with rest := v.rest.take (v.rest.length - e.old.length) ++ e.new } else v

def answer? (c : Cond) (v : View) : Option Bool :=
  if c.holds (e.view v) = c.holds v then some (c.holds v) else none

def take? (f : State → State) (s : State) : Option State :=
  if s.rest.length = e.old.length then none else some (f s)

def repeatWhile (c : Cond) (f : State → Option State) : Nat → State → Option State
  | 0, _ => none
  | n + 1, s => (e.answer? c s.toView).bind fun again =>
    if again then (f s).bind (repeatWhile c f n) else some s

def repeatCommas (strict : Bool) (c : Cond) (f : State → Option State) : Nat → State → Option State
  | 0, _ => none
  | n + 1, s => (e.answer? c s.toView).bind fun again =>
    if again then (f s).bind fun t => (e.answer? (.ahead 0 (· == .comma)) t.toView).bind fun comma =>
      if comma then (e.take? State.take t).bind (repeatCommas strict c f n)
      else if strict && t.taken == s.taken then none else some t
    else some s

def run (call : σ → State → Option State) : Action σ → State → Option State
  | .skip, s => some s
  | .take, s => e.take? State.take s
  | .takeAs k, s => e.take? (State.takeAs k) s
  | .complain _, _ => none
  | .seq a b, s => (run call a s).bind (run call b)
  | .scope a, s => (run call a { s with built := [] }).map fun t => { t with built := t.built ++ .gap :: s.built }
  | .wrap k a, s => (run call a s).map (State.wrap k)
  | .branch c a b, s => (e.answer? c s.toView).bind fun yes => if yes then run call a s else run call b s
  | .loop c a, s => e.repeatWhile c (run call a) (s.rest.length + 1) s
  | .commas strict c a, s => e.repeatCommas strict c (run call a) (s.rest.length + 1) s
  | .progress a, s => (run call a s).bind fun t => if t.taken = s.taken then none else some t
  | .inQuery a, s => (run call a { s with queries := s.queries + 1 }).map fun t => { t with queries := s.queries }
  | .call g, s => call g s

def runNamed (rule : σ → Action σ) (cross : Nat → σ → State → Option State) : Nat → σ → State → Option State
  | 0, _, _ => none
  | n + 1, g, s => (cross n g s).or (e.run (runNamed rule cross n) (rule g) s)

def runAlone (rule : σ → Action σ) : Nat → σ → State → Option State :=
  e.runNamed rule fun _ _ _ => none

/-- Follows a loop up to the exchanged end, where it may go on. -/
def repeatUntil (c : Cond) (f : State → Option State) : Nat → State → Option State
  | 0, _ => none
  | n + 1, s =>
    if s.rest.length = e.old.length then some s
    else (e.answer? c s.toView).bind fun again => if again then (f s).bind (repeatUntil c f n) else none

/-- In one place, with `i` tokens before it, the inner tree stands for the outer one. -/
def Unwrapped (i : Nat) (xs ys : List Tree) : Prop :=
  ∃ ps fs qs, xs = ps ++ Zipper.plug e.outer fs :: qs ∧ ys = ps ++ Zipper.plug e.inner fs :: qs ∧
    (Tree.tokensAll ps).length + Zipper.tokensBefore fs = i

def Differs : Option Nat → List Tree → List Tree → Prop
  | none, xs, ys => ys = xs
  | some i, xs, ys => e.Unwrapped i xs ys

/-- Two runs side by side: both are ahead of the end that is exchanged, or both are behind it with the same left to
read. The index is the place of the trees in the scope, unless the scope began behind them. -/
inductive Mirrors : Option Nat → State → State → Prop
  | ahead {i : Nat} {s : State} (x : List Item) : s.rest = x ++ e.old → s.complaints = [] →
      i = s.shown.length + x.length → Mirrors (some i) s { s with rest := x ++ e.new }
  | behind {k : Option Nat} {s s' : State} : s.rest.length < e.old.length → s.rest.length < e.new.length →
      s'.toView = s.toView → s'.complaints = [] → e.Differs k s.bare s'.bare → Mirrors k s s'

variable {e}

theorem Unwrapped.append_left {i : Nat} {xs ys : List Tree} (h : e.Unwrapped i xs ys) (zs : List Tree) :
    e.Unwrapped ((Tree.tokensAll zs).length + i) (zs ++ xs) (zs ++ ys) := by
  obtain ⟨ps, fs, qs, rfl, rfl, rfl⟩ := h
  refine ⟨zs ++ ps, fs, qs, by simp, by simp, ?_⟩
  rw [Tree.tokensAll_append, List.length_append, Nat.add_assoc]

theorem Differs.append_right {k : Option Nat} {xs ys : List Tree} (h : e.Differs k xs ys) (zs : List Tree) :
    e.Differs k (xs ++ zs) (ys ++ zs) := by
  cases k with
  | none => exact congrArg (· ++ zs) h
  | some i =>
    obtain ⟨ps, fs, qs, rfl, rfl, hi⟩ := h
    exact ⟨ps, fs, qs ++ zs, by simp, by simp, hi⟩

theorem Differs.node {k : Option Nat} {xs ys : List Tree} (h : e.Differs k xs ys) (kind : Kind) :
    e.Differs k [.node kind xs] [.node kind ys] := by
  cases k with
  | none => rw [Differs, show ys = xs from h]
  | some i =>
    obtain ⟨ps, fs, qs, rfl, rfl, hi⟩ := h
    refine ⟨[], fs ++ [⟨kind, ps.reverse, qs⟩], [], ?_, ?_, ?_⟩
    · simp [Zipper.plug_snoc, Frame.fill]
    · simp [Zipper.plug_snoc, Frame.fill]
    · rw [Zipper.tokensBefore_snoc, Zipper.length_tokensAll_reverse, hi, Tree.tokensAll, List.length_nil, Nat.zero_add]

theorem holds_of_answer? {c : Cond} {v : View} {b : Bool} (h : e.answer? c v = some b) :
    c.holds v = b ∧ c.holds (e.view v) = b := by
  unfold answer? at h
  split at h
  · rename_i hsame
    obtain rfl := Option.some.inj h
    exact ⟨rfl, hsame⟩
  · cases h

end Exchange

namespace State

def takeWith (f : Item → Token) (s : State) : State :=
  match s.rest with
  | [] => s
  | i :: rest => { s with rest, taken := s.taken + 1, built := .token (f i) :: s.built }

end State

namespace Exchange

variable {σ : Type} {e : Exchange}

namespace Mirrors

variable {k : Option Nat} {s s' t t' : State}

theorem toView (h : e.Mirrors k s s') : s'.toView = e.view s.toView := by
  cases h with
  | ahead x hx => simp [view, hx]
  | behind hold _ hview _ _ => rw [hview, view, if_neg (Nat.not_le.mpr hold)]

theorem queries (h : e.Mirrors k s s') : s'.queries = s.queries := by
  rw [h.toView, view]
  split <;> rfl

theorem length_lt (h : e.Mirrors k s s') (h' : e.Mirrors k t t') (hlt : t.rest.length < s.rest.length) :
    t'.rest.length < s'.rest.length := by
  -- A run that gets behind the end has less left than the end in its place.
  cases h with
  | ahead x hx _ _ =>
    cases h' with
    | ahead y hy _ _ =>
      rw [hx, hy] at hlt
      simp only [List.length_append] at hlt ⊢
      omega
    | behind _ hnew hview _ _ =>
      rw [hview, List.length_append]
      omega
  | behind hold hnew hview _ _ =>
    rw [hview]
    cases h' with
    | ahead y hy _ _ =>
      rw [hy, List.length_append] at hlt
      omega
    | behind _ _ hview' _ _ => rwa [hview']

theorem takeWith (h : e.Mirrors k s s') (hne : s.rest.length ≠ e.old.length) (f : Item → Token) :
    e.Mirrors k (s.takeWith f) (s'.takeWith f) := by
  cases h with
  | @ahead i s x hx hclean hi =>
    obtain ⟨⟨rest, q⟩, taken, built, complaints⟩ := s
    obtain rfl : rest = x ++ e.old := hx
    cases x with
    | nil => exact absurd rfl hne
    | cons y x =>
      refine ahead (s := ⟨⟨x ++ e.old, q⟩, taken + 1, .token (f y) :: built, complaints⟩) x rfl hclean ?_
      simp only [State.shown, List.reverse_cons, Outline.tokensAll_append, Outline.tokensAll, Outline.tokens,
        List.length_append, List.length_cons, List.length_nil] at hi ⊢
      omega
  | behind hold hnew hview hclean hdiffers =>
    obtain ⟨⟨rest, q⟩, taken, built, complaints⟩ := s
    obtain ⟨v, taken', built', complaints'⟩ := s'
    obtain rfl : v = ⟨rest, q⟩ := hview
    cases rest with
    | nil => exact behind hold hnew rfl hclean hdiffers
    | cons y rest =>
      refine behind (Nat.lt_of_succ_lt hold) (Nat.lt_of_succ_lt hnew) rfl hclean ?_
      simp only [State.takeWith]
      rw [State.bare_push ⟨⟨rest, q⟩, taken + 1, built, complaints⟩,
        State.bare_push ⟨⟨rest, q⟩, taken' + 1, built', complaints'⟩]
      exact hdiffers.append_right _

theorem wrap (h : e.Mirrors k s s') (kind : Kind) : e.Mirrors k (s.wrap kind) (s'.wrap kind) := by
  cases h with
  | @ahead i s x hx hclean hi => exact ahead (s := s.wrap kind) x hx hclean (by rw [State.shown_wrap, hi])
  | behind hold hnew hview hclean hdiffers =>
    refine behind hold hnew hview hclean ?_
    rw [State.bare_wrap, State.bare_wrap]
    exact hdiffers.node kind

theorem setQueries (h : e.Mirrors k s s') (q : Nat) : e.Mirrors k { s with queries := q } { s' with queries := q } := by
  cases h with
  | @ahead i s x hx hclean hi => exact ahead (s := { s with queries := q }) x hx hclean hi
  | behind hold hnew hview hclean hdiffers =>
    refine behind hold hnew ?_ hclean hdiffers
    rw [hview]

theorem scope (h : e.Mirrors k s s') : ∃ k', e.Mirrors k' { s with built := [] } { s' with built := [] } ∧
    ∀ t t', e.Mirrors k' t t' →
      e.Mirrors k { t with built := t.built ++ .gap :: s.built } { t' with built := t'.built ++ .gap :: s'.built } := by
  have hbare (s t : State) : ({ t with built := t.built ++ .gap :: s.built } : State).bare = s.bare ++ t.bare :=
    s.bare_enclose fun _ => t
  have hshown (s t : State) : ({ t with built := t.built ++ .gap :: s.built } : State).shown = s.shown ++ t.shown :=
    s.shown_enclose fun _ => t
  cases h with
  | @ahead i s x hx hclean hi =>
    refine ⟨some x.length, ahead (s := { s with built := [] }) x hx hclean (by simp [State.shown, Outline.tokensAll]),
      fun t t' h' => ?_⟩
    -- In the scope the place counts from its start, outside it what was shown before comes on top.
    cases h' with
    | @ahead _ t y hy hclean' hj =>
      refine ahead (s := { t with built := t.built ++ .gap :: s.built }) y hy hclean' ?_
      rw [hshown, List.length_append, hi, hj, Nat.add_assoc]
    | behind hold hnew hview hclean' hdiffers =>
      refine behind hold hnew hview hclean' ?_
      have htokens : Tree.tokensAll s.bare = s.shown := Outline.tokensAll_bareAll _
      rw [hbare s t, hbare _ t', hi, ← htokens]
      exact Unwrapped.append_left hdiffers s.bare
  | behind hold hnew hview hclean hdiffers =>
    refine ⟨none, behind hold hnew hview hclean rfl, fun t t' h' => ?_⟩
    cases h' with
    | behind hold' hnew' hview' hclean' hsame =>
      refine behind hold' hnew' hview' hclean' ?_
      rw [hbare s t, hbare s' t', show t'.bare = t.bare from hsame]
      exact hdiffers.append_right _

theorem setAside_of_lt (h : e.Mirrors k s s') (h' : e.Mirrors k t t') (hadv : s.Advances t) (hadv' : s'.Advances t')
    (hne : t.taken ≠ s.taken) : t.setAside s.taken = t ∧ t'.setAside s'.taken = t' := by
  have hlen := hadv.length_add_taken
  have hlen' := hadv'.length_add_taken
  have hle := hadv.taken_le
  have hlt := h.length_lt h' (by omega)
  have hne' : t'.taken ≠ s'.taken := by omega
  simp [State.setAside, hne, hne']

end Mirrors

def Doubles (e : Exchange) (rule : σ → Action σ) (n : Nat) (a : Action σ) (s t : State) : Prop :=
  ∀ {k s'}, e.Mirrors k s s' → Runs rule n a s t ∧ ∃ t', Runs rule n a s' t' ∧ e.Mirrors k t t'

section Doubles

variable {rule : σ → Action σ} {n : Nat} {a : Action σ} {f : State → Option State} {c : Cond} {s t : State}

theorem take?_eq_some {f : State → State} (h : e.take? f s = some t) : s.rest.length ≠ e.old.length ∧ t = f s := by
  unfold take? at h
  split at h
  · cases h
  · rename_i hne
    exact ⟨hne, (Option.some.inj h).symm⟩

theorem doubles_scope (h : e.Doubles rule n a { s with built := [] } t) :
    e.Doubles rule n (.scope a) s { t with built := t.built ++ .gap :: s.built } := by
  intro k s' hs
  obtain ⟨k', hinner, houter⟩ := hs.scope
  obtain ⟨ha, t', ha', ht⟩ := h hinner
  exact ⟨.scope ha, _, .scope ha', houter t t' ht⟩

theorem doubles_repeatWhile (hf : ∀ s t, f s = some t → e.Doubles rule n a s t) (m : Nat)
    (h : e.repeatWhile c f m s = some t) : e.Doubles rule n (.loop c a) s t := by
  induction m generalizing s with
  | zero => cases h
  | succ m ih =>
    intro k s' hs
    obtain ⟨b, hb, h⟩ := Option.bind_eq_some_iff.mp h
    obtain ⟨hold, hnew⟩ := holds_of_answer? hb
    rw [← hs.toView] at hnew
    cases b with
    | false =>
      obtain rfl := Option.some.inj h
      exact ⟨.loop_false hold, s', .loop_false hnew, hs⟩
    | true =>
      obtain ⟨u, hu, h⟩ := Option.bind_eq_some_iff.mp h
      obtain ⟨ha, u', ha', hs⟩ := hf s u hu hs
      obtain ⟨hl, t', hl', hs⟩ := ih h hs
      exact ⟨.loop_true hold ha hl, t', .loop_true hnew ha' hl', hs⟩

theorem exists_of_repeatUntil (hf : ∀ s t, f s = some t → e.Doubles rule n a s t) (m : Nat)
    (h : e.repeatUntil c f m s = some t) {k : Option Nat} {s' : State} (hs : e.Mirrors k s s') :
    s.Advances t ∧ ∃ t', e.Mirrors k t t' ∧ ∀ u, Runs rule n (.loop c a) t' u → Runs rule n (.loop c a) s' u := by
  induction m generalizing s s' with
  | zero => cases h
  | succ m ih =>
    rw [repeatUntil] at h
    split at h
    · obtain rfl := Option.some.inj h
      exact ⟨State.steady_advances.refl s, s', hs, fun _ hu => hu⟩
    · obtain ⟨b, hb, h⟩ := Option.bind_eq_some_iff.mp h
      cases b with
      | false => cases h
      | true =>
        have hnew := (holds_of_answer? hb).2
        rw [← hs.toView] at hnew
        obtain ⟨v, hv, h⟩ := Option.bind_eq_some_iff.mp h
        obtain ⟨ha, v', ha', hv⟩ := hf s v hv hs
        obtain ⟨hadv, t', ht, hloop⟩ := ih h hv
        exact ⟨State.steady_advances.trans ha.advances hadv, t', ht, fun u hu => .loop_true hnew ha' (hloop u hu)⟩

theorem doubles_repeatCommas (strict : Bool) (hf : ∀ s t, f s = some t → e.Doubles rule n a s t) (m : Nat)
    (h : e.repeatCommas strict c f m s = some t) : e.Doubles rule n (.commas strict c a) s t := by
  induction m generalizing s with
  | zero => cases h
  | succ m ih =>
    intro k s' hs
    obtain ⟨b, hb, h⟩ := Option.bind_eq_some_iff.mp h
    obtain ⟨hold, hnew⟩ := holds_of_answer? hb
    rw [← hs.toView] at hnew
    cases b with
    | false =>
      obtain rfl := Option.some.inj h
      exact ⟨.commas_none hold, s', .commas_none hnew, hs⟩
    | true =>
      obtain ⟨u, hu, h⟩ := Option.bind_eq_some_iff.mp h
      obtain ⟨ha, u', ha', hu⟩ := hf s u hu hs
      obtain ⟨b, hb, h⟩ := Option.bind_eq_some_iff.mp h
      obtain ⟨hcomma, hcomma'⟩ := holds_of_answer? hb
      rw [← hu.toView] at hcomma'
      cases b with
      | true =>
        obtain ⟨v, hv, h⟩ := Option.bind_eq_some_iff.mp h
        obtain ⟨hne, rfl⟩ := take?_eq_some hv
        obtain ⟨hl, t', hl', hs⟩ := ih h (hu.takeWith hne (·.toToken))
        exact ⟨.commas_next hold ha (beq_iff_eq.mp hcomma) hl, t',
          .commas_next hnew ha' (beq_iff_eq.mp hcomma') hl', hs⟩
      | false =>
        have hlast := beq_eq_false_iff_ne.mp hcomma
        have hlast' := beq_eq_false_iff_ne.mp hcomma'
        -- An action that took nothing is not followed further, so that nothing is set aside in either run.
        cases strict with
        | false =>
          obtain rfl := Option.some.inj h
          exact ⟨.commas_last hold ha hlast, u', .commas_last hnew ha' hlast', hu⟩
        | true =>
          by_cases hstill : u.taken = s.taken
          · simp [hstill] at h
          · obtain rfl : u = t := by simpa [hstill] using h
            obtain ⟨hstop, hstop'⟩ := hs.setAside_of_lt hu ha.advances ha'.advances hstill
            have hr := Runs.commas_stop hold ha hlast
            have hr' := Runs.commas_stop hnew ha' hlast'
            rw [hstop] at hr
            rw [hstop'] at hr'
            exact ⟨hr, u', hr', hu⟩

theorem doubles_run {call : σ → State → Option State}
    (hcall : ∀ g s t, call g s = some t → e.Doubles rule n (.call g) s t) (a : Action σ)
    (h : e.run call a s = some t) : e.Doubles rule n a s t := by
  induction a generalizing s t with
  | skip =>
    intro k s' hs
    obtain rfl := Option.some.inj h
    exact ⟨.skip s, s', .skip s', hs⟩
  | take =>
    intro k s' hs
    obtain ⟨hne, rfl⟩ := take?_eq_some h
    exact ⟨.take s, _, .take s', hs.takeWith hne (·.toToken)⟩
  | takeAs kind =>
    intro k s' hs
    obtain ⟨hne, rfl⟩ := take?_eq_some h
    exact ⟨.takeAs kind s, _, .takeAs kind s', hs.takeWith hne (⟨kind, ·.text⟩)⟩
  | complain f => cases h
  | seq a b iha ihb =>
    intro k s' hs
    obtain ⟨u, ha, hb⟩ := Option.bind_eq_some_iff.mp h
    obtain ⟨ha, u', ha', hu⟩ := iha ha hs
    obtain ⟨hb, t', hb', ht⟩ := ihb hb hu
    exact ⟨.seq ha hb, t', .seq ha' hb', ht⟩
  | scope a ih =>
    obtain ⟨u, ha, rfl⟩ := Option.map_eq_some_iff.mp h
    exact doubles_scope (ih ha)
  | wrap kind a ih =>
    intro k s' hs
    obtain ⟨u, ha, rfl⟩ := Option.map_eq_some_iff.mp h
    obtain ⟨ha, u', ha', hu⟩ := ih ha hs
    exact ⟨.wrap ha, _, .wrap ha', hu.wrap kind⟩
  | branch c a b iha ihb =>
    intro k s' hs
    obtain ⟨yes, hyes, h⟩ := Option.bind_eq_some_iff.mp h
    obtain ⟨hold, hnew⟩ := holds_of_answer? hyes
    rw [← hs.toView] at hnew
    cases yes with
    | true =>
      obtain ⟨ha, t', ha', ht⟩ := iha h hs
      exact ⟨.branch_true hold ha, t', .branch_true hnew ha', ht⟩
    | false =>
      obtain ⟨hb, t', hb', ht⟩ := ihb h hs
      exact ⟨.branch_false hold hb, t', .branch_false hnew hb', ht⟩
  | loop c a ih => exact doubles_repeatWhile (fun _ _ => ih) _ h
  | commas strict c a ih => exact doubles_repeatCommas strict (fun _ _ => ih) _ h
  | progress a ih =>
    intro k s' hs
    obtain ⟨u, ha, h⟩ := Option.bind_eq_some_iff.mp h
    obtain ⟨ha, u', ha', hu⟩ := ih ha hs
    by_cases hstill : u.taken = s.taken
    · simp [hstill] at h
    · obtain rfl : u = t := by simpa [hstill] using h
      obtain ⟨hstop, hstop'⟩ := hs.setAside_of_lt hu ha.advances ha'.advances hstill
      have hr := Runs.progress ha
      have hr' := Runs.progress ha'
      rw [hstop] at hr
      rw [hstop'] at hr'
      exact ⟨hr, u', hr', hu⟩
  | inQuery a ih =>
    intro k s' hs
    obtain ⟨u, ha, rfl⟩ := Option.map_eq_some_iff.mp h
    obtain ⟨ha, u', ha', hu⟩ := ih ha (hs.setQueries (s.queries + 1))
    rw [← hs.queries] at ha'
    refine ⟨.inQuery ha, _, .inQuery ha', ?_⟩
    rw [hs.queries]
    exact hu.setQueries s.queries
  | call g => exact hcall g s t h

theorem doubles_runNamed {cross : Nat → σ → State → Option State}
    (hcross : ∀ n g s t, cross n g s = some t → e.Doubles rule (n + 1) (.call g) s t) (n : Nat) (g : σ)
    (h : e.runNamed rule cross n g s = some t) : e.Doubles rule n (.call g) s t := by
  induction n generalizing g s t with
  | zero => cases h
  | succ n ih =>
    obtain h | ⟨-, h⟩ := Option.or_eq_some_iff.mp h
    · exact hcross _ g s t h
    · intro k s' hs
      obtain ⟨hr, t', hr', ht⟩ := doubles_run (fun g s t => ih g) (rule g) h hs
      exact ⟨.call hr, t', .call hr', ht⟩

theorem doubles_runAlone {g : σ} (h : e.runAlone rule n g s = some t) : e.Doubles rule n (.call g) s t :=
  doubles_runNamed (by rintro _ _ _ _ ⟨⟩) n g h

end Doubles

end Exchange

end Lintel.Grammar
