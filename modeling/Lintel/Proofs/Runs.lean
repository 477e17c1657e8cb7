import Lintel.Syntax.Parse

namespace Lintel.Grammar

structure Steady (ok : Kind → View → Prop) (R : State → State → Prop) : Prop where
  refl : ∀ s, R s s
  trans : ∀ {s t u}, R s t → R t u → R s u
  take : ∀ s, R s s.take
  takeAs : ∀ {k} {s : State}, ok k s.toView → R s (s.takeAs k)
  complain : ∀ f s, R s (s.complain f)
  enclose : ∀ {s : State} {f : State → State},
    R { s with built := [] } (f { s with built := [] }) → R s (s.enclose f)
  wrap : ∀ k s, R s (s.wrap k)
  inQuery : ∀ {s t : State}, R { s with queries := s.queries + 1 } t → R s { t with queries := s.queries }

namespace Steady

variable {ok : Kind → View → Prop} {R : State → State → Prop} (h : Steady ok R)

include h

theorem setAside (before : Nat) (s : State) : R s (s.setAside before) := by
  unfold State.setAside
  split
  · apply h.enclose
    exact h.trans (h.complain _ _) (h.trans (h.take _) (h.wrap _ _))
  · exact h.refl s

theorem repeatWhile {c : Cond} {f : State → State}
    (hf : ∀ s : State, c.holds s.toView = true → R s (f s)) (n : Nat) (s : State) :
    R s (State.repeatWhile c f n s) := by
  induction n generalizing s with
  | zero => exact h.refl s
  | succ n ih =>
    rw [State.repeatWhile]
    split
    · rename_i hc
      exact h.trans (hf s hc) (ih _)
    · exact h.refl s

theorem repeatCommas {c : Cond} {f : State → State}
    (hf : ∀ s : State, c.holds s.toView = true → R s (f s)) (strict : Bool) (n : Nat) (s : State) :
    R s (State.repeatCommas strict c f n s) := by
  induction n generalizing s with
  | zero => exact h.refl s
  | succ n ih =>
    rw [State.repeatCommas]
    split
    · rename_i hc
      refine h.trans (hf s hc) ?_
      dsimp only
      split
      · exact h.trans (h.take _) (ih _)
      · split
        · exact h.setAside _ _
        · exact h.refl _
    · exact h.refl s

end Steady

namespace Action

variable {σ : Type}

/-- Wherever an item is taken under another kind, the tests passed on the way make sure that this is
allowed. `known` is what holds where a named action is called, and `P` where this action starts. -/
def Guarded (ok : Kind → View → Prop) (known : σ → View → Prop) : Action σ → (View → Prop) → Prop
  | skip, _ => True
  | take, _ => True
  | takeAs k, P => ∀ v, P v → ok k v
  | complain _, _ => True
  | seq a b, P => a.Guarded ok known P ∧ b.Guarded ok known (fun _ => True)
  | scope a, P => a.Guarded ok known P
  | wrap _ a, P => a.Guarded ok known P
  | branch c a b, P => a.Guarded ok known (fun v => P v ∧ c.holds v = true) ∧ b.Guarded ok known P
  | loop c a, _ => a.Guarded ok known (fun v => c.holds v = true)
  | commas _ c a, _ => a.Guarded ok known (fun v => c.holds v = true)
  | progress a, P => a.Guarded ok known P
  | inQuery a, P => a.Guarded ok known (fun v => ∃ q, P { v with queries := q })
  | call g, P => ∀ v, P v → known g v

theorem Guarded.run {ok : Kind → View → Prop} {known : σ → View → Prop} {R : State → State → Prop}
    (hR : Steady ok R) {call : σ → State → State}
    (hcall : ∀ g (s : State), known g s.toView → R s (call g s)) {a : Action σ}
    {P : View → Prop} (h : a.Guarded ok known P) {s : State} (hs : P s.toView) :
    R s (a.run call s) := by
  induction a generalizing P s with
  | skip => exact hR.refl s
  | take => exact hR.take s
  | takeAs k => exact hR.takeAs (h _ hs)
  | complain f => exact hR.complain f s
  | seq a b iha ihb => exact hR.trans (iha h.1 hs) (ihb h.2 trivial)
  | scope a ih => exact hR.enclose (ih h hs)
  | wrap k a ih => exact hR.trans (ih h hs) (hR.wrap k _)
  | branch c a b iha ihb =>
    rw [Action.run]
    split
    · rename_i hc
      exact iha h.1 ⟨hs, hc⟩
    · exact ihb h.2 hs
  | loop c a ih => exact hR.repeatWhile (fun t ht => ih h ht) _ s
  | commas strict c a ih => exact hR.repeatCommas (fun t ht => ih h ht) strict _ s
  | progress a ih => exact hR.trans (ih h hs) (hR.setAside _ _)
  | inQuery a ih => exact hR.inQuery (ih h ⟨_, hs⟩)
  | call g => exact hcall g s (h _ hs)

theorem guarded_always (a : Action σ) (P : View → Prop) :
    a.Guarded (fun _ _ => True) (fun _ _ => True) P := by
  induction a generalizing P with
  | takeAs k => exact fun _ _ => trivial
  | call g => exact fun _ _ => trivial
  | seq a b iha ihb => exact ⟨iha _, ihb _⟩
  | branch c a b iha ihb => exact ⟨iha _, ihb _⟩
  | scope a ih | wrap k a ih | progress a ih | loop c a ih | commas strict c a ih | inQuery a ih =>
    exact ih _
  | _ => trivial

end Action

theorem Steady.run {σ : Type} {R : State → State → Prop} (hR : Steady (fun _ _ => True) R)
    {call : σ → State → State} (hcall : ∀ g s, R s (call g s)) (a : Action σ) (s : State) :
    R s (a.run call s) :=
  (a.guarded_always (fun _ => True)).run hR (fun g s _ => hcall g s) trivial

namespace State

def shown (s : State) : List Token :=
  Outline.tokensAll s.built.reverse

def Advances (s t : State) : Prop :=
  t.queries = s.queries ∧ (∃ new, t.complaints = new ++ s.complaints) ∧
    ∃ items tokens, s.rest = items ++ t.rest ∧ t.taken = s.taken + items.length ∧
      t.shown = s.shown ++ tokens ∧ tokens.length = items.length

theorem shown_push (s : State) (o : Outline) :
    { s with built := o :: s.built }.shown = s.shown ++ o.tokens := by
  simp [shown, Outline.tokensAll_append, Outline.tokensAll]

theorem shown_wrap (k : Kind) (s : State) : (s.wrap k).shown = s.shown := by
  simp [wrap, shown, Outline.tokensAll, Outline.tokens]

theorem shown_enclose (s : State) (f : State → State) :
    (s.enclose f).shown = s.shown ++ (f { s with built := [] }).shown := by
  simp [enclose, shown, Outline.tokensAll_append, Outline.tokensAll, Outline.tokens]

theorem steady_advances : Steady (fun _ _ => True) Advances where
  refl s := ⟨rfl, ⟨[], rfl⟩, [], [], rfl, rfl, by simp, rfl⟩
  trans := by
    rintro s t u ⟨hq, ⟨cs, hc⟩, is, ts, hr, ht, hs, hl⟩ ⟨hq', ⟨cs', hc'⟩, is', ts', hr', ht', hs', hl'⟩
    refine ⟨hq'.trans hq, ⟨cs' ++ cs, by simp [hc, hc']⟩, is ++ is', ts ++ ts', by simp [hr, hr'], ?_,
      by simp [hs, hs'], by simp [hl, hl']⟩
    rw [ht', ht, List.length_append, Nat.add_assoc]
  take := by
    intro s
    unfold take
    split
    · exact ⟨rfl, ⟨[], rfl⟩, [], [], rfl, rfl, by simp, rfl⟩
    · rename_i i rest hr
      exact ⟨rfl, ⟨[], rfl⟩, [i], [i.toToken], hr, rfl, shown_push _ _, rfl⟩
  takeAs := by
    intro k s _
    unfold takeAs
    split
    · exact ⟨rfl, ⟨[], rfl⟩, [], [], rfl, rfl, by simp, rfl⟩
    · rename_i i rest hr
      exact ⟨rfl, ⟨[], rfl⟩, [i], [⟨k, i.text⟩], hr, rfl, shown_push _ _, rfl⟩
  complain f s := ⟨rfl, ⟨[⟨f, s.taken⟩], rfl⟩, [], [], rfl, rfl, by simp [complain, shown], rfl⟩
  enclose := by
    rintro s f ⟨hq, hc, is, ts, hr, ht, hs, hl⟩
    refine ⟨hq, hc, is, ts, hr, ht, ?_, hl⟩
    rw [shown_enclose, hs]
    simp [shown, Outline.tokensAll]
  wrap k s := ⟨rfl, ⟨[], rfl⟩, [], [], rfl, rfl, by simp [shown_wrap], rfl⟩
  inQuery := by
    rintro s t ⟨hq, hc, is, ts, hr, ht, hs, hl⟩
    exact ⟨rfl, hc, is, ts, hr, ht, hs, hl⟩

namespace Advances

variable {s t u : State}

theorem length_add_taken (h : s.Advances t) : t.rest.length + t.taken = s.rest.length + s.taken := by
  obtain ⟨-, -, is, ts, hr, ht, -⟩ := h
  rw [hr, ht, List.length_append]
  omega

theorem taken_le (h : s.Advances t) : s.taken ≤ t.taken := by
  obtain ⟨-, -, is, ts, -, ht, -⟩ := h
  omega

theorem length_le (h : s.Advances t) : t.rest.length ≤ s.rest.length := by
  have := h.length_add_taken
  have := h.taken_le
  omega

theorem view_eq (h : s.Advances t) (ht : t.rest.length = s.rest.length) : t.toView = s.toView := by
  obtain ⟨hq, -, is, ts, hr, -, -⟩ := h
  have hnil : is = [] := by
    apply List.length_eq_zero_iff.mp
    have := congrArg List.length hr
    simp only [List.length_append] at this
    omega
  rw [hnil, List.nil_append] at hr
  rw [View.mk.injEq]
  exact ⟨hr.symm, hq⟩

end Advances

end State

theorem Action.advances {σ : Type} {call : σ → State → State}
    (hcall : ∀ g (s : State), s.Advances (call g s)) (a : Action σ) (s : State) :
    s.Advances (a.run call s) :=
  State.steady_advances.run hcall a s

theorem Action.advances_runNamed {σ : Type} (rule : σ → Action σ) (n : Nat) (g : σ) (s : State) :
    s.Advances (runNamed rule n g s) := by
  induction n generalizing g s with
  | zero => exact State.steady_advances.refl s
  | succ n ih => exact (rule g).advances ih s

namespace State

theorem length_setAside {s t : State} (h : s.Advances t) (hs : s.rest ≠ []) :
    (t.setAside s.taken).rest.length < s.rest.length := by
  have hlen := h.length_add_taken
  have hpos := List.length_pos_iff.mpr hs
  unfold setAside
  split
  · rename_i hc
    simp only [Bool.and_eq_true, beq_iff_eq, Bool.not_eq_true', List.isEmpty_eq_false_iff] at hc
    obtain ⟨i, rest, hr⟩ := List.exists_cons_of_ne_nil hc.2
    simp only [hr, List.length_cons] at hlen
    simp only [enclose, wrap, take, complain, hr]
    omega
  · rename_i hc
    by_cases hr : t.rest = []
    · simpa [hr] using hpos
    · have htaken : t.taken ≠ s.taken := by
        intro ht
        simp [ht, hr] at hc
      have := h.taken_le
      omega

theorem rest_repeatWhile {f : State → State}
    (hf : ∀ s : State, s.rest ≠ [] → (f s).rest.length < s.rest.length) (n : Nat) (s : State)
    (hn : s.rest.length ≤ n) : (repeatWhile (Rule.before []) f n s).rest = [] := by
  induction n generalizing s with
  | zero => exact List.length_eq_zero_iff.mp (Nat.le_zero.mp hn)
  | succ n ih =>
    rw [repeatWhile]
    split
    · rename_i hc
      have hs : s.rest ≠ [] := by
        intro h
        simp [Rule.before, Cond.holds, h] at hc
      have := hf s hs
      exact ih _ (by omega)
    · rename_i hc
      simpa [Rule.before, Rule.sees, Cond.holds] using hc

end State

theorem Action.rest_run_many {call : Symbol → State → State}
    (hcall : ∀ g (s : State), s.Advances (call g s)) (a : Rule) (s : State) :
    ((Rule.many [] a).run call s).rest = [] :=
  State.rest_repeatWhile (fun t ht => State.length_setAside (a.advances hcall t) ht) _ s (Nat.le_refl _)

theorem rest_runNamed_compilationUnit (n : Nat) (s : State) :
    (Action.runNamed rule (n + 1) .compilationUnit s).rest = [] :=
  Action.rest_run_many (Action.advances_runNamed rule n) _ s

end Lintel.Grammar
