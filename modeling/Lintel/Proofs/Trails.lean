import Lintel.Proofs.NodeContents

namespace Lintel.Grammar

/-- A relation between the states before and after a run. On both sides something is known of the last token. -/
structure Trail (α : Type) where
  Kept : α → State → State → α → Prop
  refl (b : α) (s : State) : Kept b s s b
  trans {b p q : α} {s t u : State} : Kept b s t p → Kept p t u q → Kept b s u q
  enclose {b p : α} {s t : State} : Kept b { s with built := [] } t p →
    Kept b s { t with built := t.built ++ .gap :: s.built } p
  inQuery {b p : α} {s t : State} {n : Nat} : Kept b { s with queries := n } t p →
    Kept b s { t with queries := s.queries } p

namespace Trail

variable {α σ : Type} {T : Trail α}

def Leaves (T : Trail α) (call : σ → State → State) (P : View → Prop) (b : α) (a : Action σ) (Q : View → Prop)
    (p : α) : Prop :=
  ∀ s : State, P s.toView → s.Quiet (a.run call s) → T.Kept b s (a.run call s) p ∧ Q (a.run call s).toView

namespace Leaves

variable {call : σ → State → State} {P Q R : View → Prop} {b p q : α} {a a' : Action σ}

theorem skip : T.Leaves call P b .skip P b :=
  fun s hs _ => ⟨T.refl b s, hs⟩

theorem complain {f : GrammarFault} : T.Leaves call P b (.complain f) Q p := by
  intro s _ hquiet
  simp [State.Quiet, Action.run, State.complain] at hquiet

theorem scope (h : T.Leaves call P b a Q p) : T.Leaves call P b (.scope a) Q p := by
  intro s hs hquiet
  obtain ⟨hkept, hv⟩ := h { s with built := [] } hs hquiet
  exact ⟨T.enclose hkept, hv⟩

theorem branch {c : Cond} (ha : T.Leaves call (fun v => P v ∧ c.holds v = true) b a Q p)
    (ha' : T.Leaves call (fun v => P v ∧ c.holds v = false) b a' Q p) :
    T.Leaves call P b (.branch c a a') Q p := by
  intro s hs hquiet
  rw [Action.run] at hquiet ⊢
  by_cases hc : c.holds s.toView = true
  · rw [if_pos hc] at hquiet ⊢
    exact ha s ⟨hs, hc⟩ hquiet
  · rw [if_neg hc] at hquiet ⊢
    exact ha' s ⟨hs, by simpa using hc⟩ hquiet

theorem choose {call : Symbol → State → State} {cases : List (Cond × Rule)} {otherwise : Rule}
    (hcases : ∀ c ∈ cases, T.Leaves call (fun v => P v ∧ c.1.holds v = true) b c.2 Q p)
    (hother : T.Leaves call P b otherwise Q p) : T.Leaves call P b (Rule.choose cases otherwise) Q p := by
  induction cases with
  | nil => exact hother
  | cons c cases ih =>
    have hrest := ih (fun d hd => hcases d (List.mem_cons_of_mem _ hd))
    exact .branch (hcases c (List.mem_cons_self ..)) (fun s hs hquiet => hrest s hs.1 hquiet)

theorem inQuery (h : T.Leaves call (fun v => ∃ n, P { v with queries := n }) b a
      (fun v => ∀ n, Q { v with queries := n }) p) :
    T.Leaves call P b (.inQuery a) Q p := by
  intro s hs hquiet
  obtain ⟨hkept, hv⟩ := h { s with queries := s.queries + 1 } ⟨_, hs⟩ hquiet
  exact ⟨T.inQuery hkept, hv _⟩

section Steps

variable (hadv : ∀ g (s : State), s.Advances (call g s))

include hadv

theorem seq (ha : T.Leaves call P b a Q p) (ha' : T.Leaves call Q p a' R q) : T.Leaves call P b (.seq a a') R q := by
  intro s hs hquiet
  obtain ⟨hq, hq'⟩ := (a.advances hadv s).quiet (a'.advances hadv _) hquiet
  obtain ⟨hkept, hv⟩ := ha s hs hq
  obtain ⟨hkept', hv'⟩ := ha' _ hv hq'
  exact ⟨T.trans hkept hkept', hv'⟩

theorem progress (h : T.Leaves call P b a Q p) : T.Leaves call P b (.progress a) Q p := by
  intro s hs hquiet
  obtain ⟨hq, hq'⟩ := (a.advances hadv s).quiet (State.steady_advances.setAside _ _) hquiet
  rw [Action.run, State.setAside_of_quiet hq']
  exact h s hs hq

theorem loop {c : Cond} (h : T.Leaves call (fun v => P v ∧ c.holds v = true) b a P b) :
    T.Leaves call P b (.loop c a) P b := by
  have hrun : ∀ n (s : State), P s.toView → s.Quiet (State.repeatWhile c (a.run call) n s) →
      T.Kept b s (State.repeatWhile c (a.run call) n s) b ∧ P (State.repeatWhile c (a.run call) n s).toView := by
    intro n
    induction n with
    | zero => exact fun s hs _ => ⟨T.refl b s, hs⟩
    | succ n ih =>
      intro s hs hquiet
      rw [State.repeatWhile] at hquiet ⊢
      by_cases hc : c.holds s.toView = true
      · rw [if_pos hc] at hquiet ⊢
        obtain ⟨hq, hq'⟩ := (a.advances hadv s).quiet
          (State.steady_advances.repeatWhile (fun t _ => a.advances hadv t) n _) hquiet
        obtain ⟨hkept, hv⟩ := h s ⟨hs, hc⟩ hq
        obtain ⟨hkept', hv'⟩ := ih _ hv hq'
        exact ⟨T.trans hkept hkept', hv'⟩
      · rw [if_neg hc]
        exact ⟨T.refl b s, hs⟩
  exact fun s hs hquiet => hrun _ s hs hquiet

theorem commas {strict : Bool} {c : Cond}
    (h : T.Leaves call (fun v => c.holds v = true) b a (fun _ => True) p)
    (hcomma : T.Leaves call (fun v => v.kindAt 0 = .comma) p .take (fun _ => True) b)
    (hend : ∀ s, T.Kept b s s p) :
    T.Leaves call (fun _ => True) b (.commas strict c a) (fun _ => True) p := by
  have hrun : ∀ n (s : State), s.Quiet (State.repeatCommas strict c (a.run call) n s) →
      T.Kept b s (State.repeatCommas strict c (a.run call) n s) p := by
    intro n
    induction n with
    | zero => exact fun s _ => hend s
    | succ n ih =>
      intro s hquiet
      rw [State.repeatCommas] at hquiet ⊢
      by_cases hc : c.holds s.toView = true
      · simp only [if_pos hc] at hquiet ⊢
        have ha := a.advances hadv s
        by_cases hk : ((a.run call s).kindAt 0 == .comma) = true
        · simp only [if_pos hk] at hquiet ⊢
          have htake := State.steady_advances.take (a.run call s)
          have hloop := State.steady_advances.repeatCommas (c := c) (fun t _ => a.advances hadv t) strict n
            (a.run call s).take
          obtain ⟨hq, hq'⟩ := ha.quiet (State.steady_advances.trans htake hloop) hquiet
          obtain ⟨hq₁, hq₂⟩ := htake.quiet hloop hq'
          have hkept := (hcomma (a.run call s) (by simpa using hk) hq₁).1
          exact T.trans (T.trans (h s hc hq).1 hkept) (ih _ hq₂)
        · simp only [if_neg hk] at hquiet ⊢
          cases strict with
          | false => exact (h s hc hquiet).1
          | true =>
            obtain ⟨hq, hq'⟩ := ha.quiet (State.steady_advances.setAside _ _) hquiet
            simp only [if_true, State.setAside_of_quiet hq']
            exact (h s hc hq).1
      · simp only [if_neg hc]
        exact hend s
  exact fun s _ hquiet => ⟨hrun _ s hquiet, trivial⟩

end Steps

end Leaves

end Trail

end Lintel.Grammar
