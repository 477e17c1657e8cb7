import Lintel.Proofs.QuietRuns

/-!
The depth of calls suffices. A construct that calls another one before it has taken an item ranks above it,
so between two items there are fewer calls than ranks.
-/

namespace Lintel.Grammar

namespace Action

variable {σ : Type}

def runStrict (rule : σ → Action σ) : Nat → σ → State → State
  | 0, _, s => s.complain .missingExpression
  | n + 1, g, s => (rule g).run (runStrict rule n) s

theorem advances_runStrict (rule : σ → Action σ) (n : Nat) (g : σ) (s : State) :
    s.Advances (runStrict rule n g s) := by
  induction n generalizing g s with
  | zero => exact State.steady_advances.complain _ s
  | succ n ih => exact (rule g).advances ih s

def LazyRules (rule : σ → Action σ) (lazy : σ → Bool) : Prop :=
  ∀ g, (rule g).idle lazy {} = true → lazy g = true

theorem lazy_of_runStrict {rule : σ → Action σ} {lazy : σ → Bool} (hl : LazyRules rule lazy) (n : Nat) (g : σ)
    (s : State) (hq : s.Quiet (runStrict rule n g s))
    (hr : (runStrict rule n g s).rest.length = s.rest.length) : lazy g = true := by
  induction n generalizing g s with
  | zero => simp [State.Quiet, runStrict, State.complain] at hq
  | succ n ih =>
    exact hl g (idle_of_run (advances_runStrict rule n) ih (rule g) (Know.holds_nothing _) hq hr)

def ranked (lazy : σ → Bool) (rank : σ → Nat) (r : Nat) : Action σ → Know → Bool
  | seq a b, K => a.ranked lazy rank r K && (!a.idle lazy K || b.ranked lazy rank r K)
  | scope a, K => a.ranked lazy rank r K
  | wrap _ a, K => a.ranked lazy rank r K
  | branch c a b, K => a.ranked lazy rank r (c.learn true K) && b.ranked lazy rank r (c.learn false K)
  | loop c a, K => a.ranked lazy rank r (c.learn true K)
  | commas _ c a, K => a.ranked lazy rank r (c.learn true K)
  | progress a, K => a.ranked lazy rank r K
  | inQuery a, K => a.ranked lazy rank r K
  | call g, _ => rank g < r
  | _, _ => true

def Fits (lazy : σ → Bool) (rank : σ → Nat) (r m : Nat) (a : Action σ) (K : Know) (s : State) : Prop :=
  s.rest.length < m ∨ s.rest.length = m ∧ K.Holds s.toView ∧ a.ranked lazy rank r K = true

section Congr

variable {lazy : σ → Bool} {rank : σ → Nat} {r m : Nat} {strict named : σ → State → State}

theorem Fits.mono {a b : Action σ} {K : Know} {s t : State} (h : Fits lazy rank r m a K s)
    (hadv : s.Advances t) (hb : a.ranked lazy rank r K = true → t.rest.length = s.rest.length →
      b.ranked lazy rank r K = true) : Fits lazy rank r m b K t := by
  have hle := hadv.length_le
  obtain hlt | ⟨hm, hK, ha⟩ := h
  · exact .inl (by omega)
  · by_cases hlt : t.rest.length < m
    · exact .inl hlt
    · have ht : t.rest.length = s.rest.length := by omega
      refine .inr ⟨by omega, ?_, hb ha ht⟩
      rw [hadv.view_eq ht]
      exact hK

theorem Fits.learn {a b : Action σ} {K : Know} {s : State} (h : Fits lazy rank r m a K s) {c : Cond} {x : Bool}
    (hc : c.holds s.toView = x) (hb : a.ranked lazy rank r K = true → b.ranked lazy rank r (c.learn x K) = true) :
    Fits lazy rank r m b (c.learn x K) s := by
  obtain hlt | ⟨hm, hK, ha⟩ := h
  · exact .inl hlt
  · exact .inr ⟨hm, Cond.learn_holds hc hK, hb ha⟩

theorem repeatWhile_congr {c : Cond} {f g : State → State} {P : State → Prop}
    (hadv : ∀ s : State, s.Advances (g s)) (hP : ∀ s, P s → P (g s))
    (hfg : ∀ s : State, P s → c.holds s.toView = true → s.Quiet (g s) → f s = g s) (n : Nat) {s : State} (hs : P s)
    (hq : s.Quiet (State.repeatWhile c g n s)) : State.repeatWhile c f n s = State.repeatWhile c g n s := by
  induction n generalizing s with
  | zero => rfl
  | succ n ih =>
    rw [State.repeatWhile] at hq
    rw [State.repeatWhile, State.repeatWhile]
    split
    · rename_i hc
      rw [if_pos hc] at hq
      obtain ⟨hq1, hq2⟩ := (hadv s).quiet (State.steady_advances.repeatWhile (fun s _ => hadv s) n (g s)) hq
      rw [hfg s hs hc hq1]
      exact ih (hP s hs) hq2
    · rfl

theorem repeatCommas_congr {c : Cond} {f g : State → State} {P : State → Prop}
    (hadv : ∀ s : State, s.Advances (g s)) (hP : ∀ s, P s → P (g s).take)
    (hfg : ∀ s : State, P s → c.holds s.toView = true → s.Quiet (g s) → f s = g s) (strict : Bool) (n : Nat)
    {s : State} (hs : P s) (hq : s.Quiet (State.repeatCommas strict c g n s)) :
    State.repeatCommas strict c f n s = State.repeatCommas strict c g n s := by
  induction n generalizing s with
  | zero => rfl
  | succ n ih =>
    rw [State.repeatCommas] at hq
    rw [State.repeatCommas, State.repeatCommas]
    by_cases hc : c.holds s.toView = true
    · simp only [if_pos hc] at hq ⊢
      by_cases hcomma : (g s).kindAt 0 == .comma
      · simp only [if_pos hcomma] at hq
        have hloop := State.steady_advances.repeatCommas (c := c) (fun s _ => hadv s) strict n (g s).take
        have htake := State.steady_advances.take (g s)
        obtain ⟨hq1, hq2⟩ := (hadv s).quiet (State.steady_advances.trans htake hloop) hq
        obtain ⟨-, hq3⟩ := htake.quiet hloop hq2
        rw [hfg s hs hc hq1]
        simp only [if_pos hcomma]
        exact ih (hP s hs) hq3
      · have hq1 : s.Quiet (g s) := by
          simp only [if_neg hcomma] at hq
          cases strict with
          | false => exact hq
          | true => exact ((hadv s).quiet (State.steady_advances.setAside _ _) hq).1
        rw [hfg s hs hc hq1]
        simp only [if_neg hcomma]
    · simp only [if_neg hc]

variable (lazy rank r m) in
theorem run_congr (hstrict : ∀ g (s : State), s.Advances (strict g s))
    (hnamed : ∀ g (s : State), s.Advances (named g s))
    (hlazy : ∀ g (s : State), s.Quiet (strict g s) → (strict g s).rest.length = s.rest.length → lazy g = true)
    (hcall : ∀ g (s : State), (s.rest.length < m ∨ s.rest.length = m ∧ rank g < r) → s.Quiet (named g s) →
      strict g s = named g s)
    (a : Action σ) {K : Know} {s : State} (hfit : Fits lazy rank r m a K s) (hq : s.Quiet (a.run named s)) :
    a.run strict s = a.run named s := by
  induction a generalizing K s with
  | skip => rfl
  | take => rfl
  | takeAs k => rfl
  | complain f => rfl
  | seq a b iha ihb =>
    have ha := a.advances hnamed s
    obtain ⟨hqa, hqb⟩ := ha.quiet (b.advances hnamed _) hq
    have hfa : Fits lazy rank r m a K s :=
      hfit.mono (State.steady_advances.refl s) (fun h _ => by
        simp only [ranked, Bool.and_eq_true] at h
        exact h.1)
    have heq := iha hfa hqa
    have hfb : Fits lazy rank r m b K (a.run named s) := by
      obtain hlt | ⟨hm, hK, hr⟩ := hfit
      · exact .inl (by have := ha.length_le; omega)
      · refine Fits.mono (.inr ⟨hm, hK, hr⟩) ha (fun h ht => ?_)
        have hidle : a.idle lazy K = true := by
          rw [← heq] at hqa ht
          exact idle_of_run hstrict hlazy a hK hqa ht
        simp only [ranked, hidle, Bool.not_true, Bool.false_or, Bool.and_eq_true] at h
        exact h.2
    rw [run, run, heq]
    exact ihb hfb hqb
  | scope a ih =>
    have h := ih (s := { s with built := [] }) hfit hq
    simp only [run, State.enclose, h]
  | wrap k a ih =>
    have h := ih (s := s) hfit hq
    simp only [run, h]
  | branch c a b iha ihb =>
    rw [run] at hq
    rw [run, run]
    split
    · rename_i hc
      rw [if_pos hc] at hq
      refine iha (hfit.learn hc (fun h => ?_)) hq
      simp only [ranked, Bool.and_eq_true] at h
      exact h.1
    · rename_i hc
      rw [if_neg hc] at hq
      refine ihb (hfit.learn (by simpa using hc) (fun h => ?_)) hq
      simp only [ranked, Bool.and_eq_true] at h
      exact h.2
  | loop c a ih =>
    refine repeatWhile_congr (P := Fits lazy rank r m (loop c a) K) (a.advances hnamed) ?_ ?_ _ hfit hq
    · exact fun t ht => ht.mono (a.advances hnamed t) (fun h _ => h)
    · exact fun t ht hc hqt => ih (ht.learn hc (fun h => h)) hqt
  | commas strict c a ih =>
    refine repeatCommas_congr (P := Fits lazy rank r m (commas strict c a) K) (a.advances hnamed) ?_ ?_ strict _
      hfit hq
    · exact fun t ht => ht.mono
        (State.steady_advances.trans (a.advances hnamed t) (State.steady_advances.take _)) (fun h _ => h)
    · exact fun t ht hc hqt => ih (ht.learn hc (fun h => h)) hqt
  | progress a ih =>
    have h := ih hfit ((a.advances hnamed s).quiet (State.steady_advances.setAside _ _) hq).1
    simp only [run, h]
  | inQuery a ih =>
    have hin : Fits lazy rank r m a K { s with queries := s.queries + 1 } := by
      obtain hlt | ⟨hm, hK, hr⟩ := hfit
      · exact .inl hlt
      · exact .inr ⟨hm, ⟨hK.first, hK.second, hK.some⟩, hr⟩
    have h := ih hin hq
    simp only [run, h]
  | call g =>
    refine hcall g s ?_ hq
    obtain hlt | ⟨hm, -, hr⟩ := hfit
    · exact .inl hlt
    · exact .inr ⟨hm, by simpa [ranked] using hr⟩

end Congr

theorem runStrict_eq {rule : σ → Action σ} {lazy : σ → Bool} {rank : σ → Nat} {bound : Nat}
    (hl : LazyRules rule lazy) (hrank : ∀ g, (rule g).ranked lazy rank (rank g) {} = true)
    (hbound : ∀ g, rank g < bound) (n : Nat) (g : σ) (s : State) (hn : bound * s.rest.length + rank g < n)
    (hq : s.Quiet (runNamed rule n g s)) : runStrict rule n g s = runNamed rule n g s := by
  induction n generalizing g s with
  | zero => omega
  | succ n ih =>
    refine run_congr lazy rank (rank g) s.rest.length (advances_runStrict rule n) (advances_runNamed rule n)
      (lazy_of_runStrict hl n) ?_ (rule g) (.inr ⟨rfl, Know.holds_nothing _, hrank g⟩) hq
    intro h t hfit hqt
    refine ih h t ?_ hqt
    have hh := hbound h
    obtain hlt | ⟨heq, hlt⟩ := hfit
    · have := Nat.mul_le_mul_left bound (Nat.succ_le_of_lt hlt)
      rw [Nat.mul_succ] at this
      omega
    · rw [heq]
      omega

end Action

def Symbol.without (gs : List Symbol) : List Symbol :=
  [.compilationUnit, .usingDirective, .namespaceDecl, .member, .attributes, .parameterList, .bracketedParameterList,
    .typeParameterList, .constraints, .accessorList, .variableDeclaration, .block, .statement, .embedded, .expression,
    .assignment, .conditional, .coalesce, .unary, .suffixed, .primary, .pattern, .creation, .initializer, .argumentList,
    .bracketedArgumentList, .lambda, .query, .queryBody, .type true, .type false, .plainType, .typeArgumentList,
    .arrayRanks].filter (!gs.contains ·)

def Symbol.lazy : Symbol → Bool
  | .compilationUnit | .attributes | .constraints | .arrayRanks => true
  | _ => false

/-- A construct ranks above those that it may start with. -/
def Symbol.rank : Symbol → Nat
  | .plainType | .typeParameterList => 1
  | .type _ => 2
  | .usingDirective | .namespaceDecl | .creation | .query | .variableDeclaration => 3
  | .primary => 4
  | .suffixed => 5
  | .unary => 6
  | .binary _ => 7
  | .coalesce | .pattern => 8
  | .conditional => 9
  | .assignment => 10
  | .expression => 11
  | .member => 12
  | .statement => 13
  | .embedded => 14
  | .compilationUnit => 15
  | _ => 0

theorem lazyRules : Action.LazyRules rule Symbol.lazy := by
  intro g
  have h : (!(rule g).idle Symbol.lazy {} || g.lazy) = true := by cases g <;> rfl
  cases hg : g.lazy with
  | true => exact fun _ => rfl
  | false => simp [hg] at h; simp [h]

theorem rule_ranked (g : Symbol) : (rule g).ranked Symbol.lazy Symbol.rank g.rank {} = true := by
  cases g <;> rfl

theorem Symbol.rank_lt (g : Symbol) : g.rank < 64 := by
  cases g <;> simp [rank]

theorem runStrict_outline {items : List Item} (h : (outline items).2 = []) :
    Action.runStrict rule (depth items) .compilationUnit { rest := items } =
      Action.runNamed rule (depth items) .compilationUnit { rest := items } := by
  refine Action.runStrict_eq lazyRules rule_ranked Symbol.rank_lt _ _ _ ?_ ?_
  · have := Symbol.rank_lt .compilationUnit
    simp only [depth]
    omega
  · simpa [State.Quiet, outline] using h

theorem quiet_outline {items : List Item} (h : (outline items).2 = []) :
    State.Quiet { rest := items } (Action.runStrict rule (depth items) .compilationUnit { rest := items }) := by
  rw [runStrict_outline h]
  simpa [State.Quiet, outline] using h

end Lintel.Grammar
