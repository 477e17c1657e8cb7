import Lintel.Proofs.CallDepth
import Lintel.Proofs.TriviaErasure

namespace Lintel

namespace Outline

mutual

def Every (Q : Kind → List Outline → Prop) : Outline → Prop
  | .token _ => True
  | .gap => True
  | .node k cs => Q k cs ∧ EveryAll Q cs

def EveryAll (Q : Kind → List Outline → Prop) : List Outline → Prop
  | [] => True
  | c :: cs => c.Every Q ∧ EveryAll Q cs

end

theorem everyAll_iff (Q : Kind → List Outline → Prop) (cs : List Outline) :
    EveryAll Q cs ↔ ∀ c ∈ cs, c.Every Q := by
  induction cs with
  | nil => simp [EveryAll]
  | cons c cs ih => simp [EveryAll, ih]

end Outline

namespace Grammar

namespace State

def Every (Q : Kind → List Outline → Prop) (s : State) : Prop :=
  ∀ o ∈ s.built, o.Every Q

def Filled : State → Prop :=
  Every (fun _ cs => Outline.tokensAll cs ≠ [])

theorem Advances.shown_ne_nil {s t : State} (h : s.Advances t) (hs : s.shown ≠ []) : t.shown ≠ [] := by
  obtain ⟨-, -, is, ts, -, -, hshown, -⟩ := h
  simp [hshown, hs]

theorem Advances.shown_ne_nil_of_length {s t : State} (h : s.Advances t)
    (hr : t.rest.length < s.rest.length) : t.shown ≠ [] := by
  obtain ⟨-, -, is, ts, hrest, -, hshown, hl⟩ := h
  intro hnil
  rw [hshown, List.append_eq_nil_iff] at hnil
  rw [hrest, List.length_append, ← hl, hnil.2] at hr
  simp at hr

variable {Q : Kind → List Outline → Prop}

theorem every_take {s : State} (h : s.Every Q) : s.take.Every Q := by
  unfold take
  split
  · exact h
  · intro o ho
    obtain rfl | ho := List.mem_cons.mp ho
    · trivial
    · exact h o ho

theorem every_takeAs {s : State} (k : Kind) (h : s.Every Q) : (s.takeAs k).Every Q := by
  unfold takeAs
  split
  · exact h
  · intro o ho
    obtain rfl | ho := List.mem_cons.mp ho
    · trivial
    · exact h o ho

theorem every_wrap {s : State} (k : Kind) (h : s.Every Q) (hs : Q k s.built.reverse) : (s.wrap k).Every Q := by
  intro o ho
  rw [wrap, List.mem_singleton] at ho
  subst ho
  exact ⟨hs, (Outline.everyAll_iff _ _).mpr (fun c hc => h c (List.mem_reverse.mp hc))⟩

theorem every_enclose {s : State} {f : State → State} (h : s.Every Q)
    (hf : (f { s with built := [] }).Every Q) : (s.enclose f).Every Q := by
  intro o ho
  simp only [enclose, List.mem_append, List.mem_cons] at ho
  obtain ho | rfl | ho := ho
  · exact hf o ho
  · trivial
  · exact h o ho

theorem complaints_take (s : State) : s.take.complaints = s.complaints := by
  unfold take
  split <;> rfl

theorem setAside_of_quiet {before : Nat} {s : State} (h : s.Quiet (s.setAside before)) :
    s.setAside before = s := by
  unfold setAside at h ⊢
  split
  · rename_i hc
    rw [if_pos hc] at h
    simp [Quiet, enclose, wrap, complaints_take, complain] at h
  · rfl

end State

namespace Action

variable {σ : Type}

/-- Whether every node that an action makes has a token. In the scope there is already one if `dirty`, and
the action as a whole takes an item if `must`. -/
def fills (lazy : σ → Bool) : Action σ → Bool → Bool → Know → Bool
  | seq a b, dirty, _, K => a.fills lazy dirty false K && b.fills lazy (dirty || !a.idle lazy K) false (a.after K)
  | scope a, _, must, K => a.fills lazy false must K
  | wrap _ a, dirty, must, K => (dirty || must || !a.idle lazy K) && a.fills lazy dirty must K
  | branch c a b, dirty, must, K =>
    a.fills lazy dirty must (c.learn true K) && b.fills lazy dirty must (c.learn false K)
  | loop c a, dirty, _, _ => a.fills lazy dirty false (c.learn true {})
  | commas _ c a, dirty, _, _ => a.fills lazy dirty false (c.learn true {})
  | progress a, dirty, _, K => a.fills lazy dirty K.nonempty K
  | inQuery a, dirty, must, K => a.fills lazy dirty must K
  | _, _, _, _ => true

section Fills

variable {lazy : σ → Bool} {call : σ → State → State}

theorem every_repeatWhile {Q : Kind → List Outline → Prop} {c : Cond} {f : State → State} {P : State → Prop}
    (hadv : ∀ s : State, s.Advances (f s)) (hP : ∀ {s t : State}, s.Advances t → P s → P t)
    (hf : ∀ s : State, P s → c.holds s.toView = true → s.Quiet (f s) → s.Every Q → (f s).Every Q) (n : Nat)
    {s : State} (hs : P s) (hq : s.Quiet (State.repeatWhile c f n s)) (hfill : s.Every Q) :
    (State.repeatWhile c f n s).Every Q := by
  induction n generalizing s with
  | zero => exact hfill
  | succ n ih =>
    rw [State.repeatWhile] at hq ⊢
    split
    · rename_i hc
      rw [if_pos hc] at hq
      obtain ⟨hq1, hq2⟩ := (hadv s).quiet (State.steady_advances.repeatWhile (fun s _ => hadv s) n (f s)) hq
      exact ih (hP (hadv s) hs) hq2 (hf s hs hc hq1 hfill)
    · exact hfill

theorem every_repeatCommas {Q : Kind → List Outline → Prop} {c : Cond} {f : State → State} {P : State → Prop}
    (hadv : ∀ s : State, s.Advances (f s)) (hP : ∀ {s t : State}, s.Advances t → P s → P t)
    (hf : ∀ s : State, P s → c.holds s.toView = true → s.Quiet (f s) → s.Every Q → (f s).Every Q) (strict : Bool)
    (n : Nat) {s : State} (hs : P s) (hq : s.Quiet (State.repeatCommas strict c f n s)) (hfill : s.Every Q) :
    (State.repeatCommas strict c f n s).Every Q := by
  induction n generalizing s with
  | zero => exact hfill
  | succ n ih =>
    rw [State.repeatCommas] at hq ⊢
    by_cases hc : c.holds s.toView = true
    · simp only [if_pos hc] at hq ⊢
      by_cases hcomma : (f s).kindAt 0 == .comma
      · simp only [if_pos hcomma] at hq ⊢
        have hloop := State.steady_advances.repeatCommas (c := c) (fun s _ => hadv s) strict n (f s).take
        have htake := State.steady_advances.take (f s)
        obtain ⟨hq1, hq2⟩ := (hadv s).quiet (State.steady_advances.trans htake hloop) hq
        obtain ⟨-, hq3⟩ := htake.quiet hloop hq2
        exact ih (hP htake (hP (hadv s) hs)) hq3 (State.every_take (hf s hs hc hq1 hfill))
      · simp only [if_neg hcomma] at hq ⊢
        cases strict with
        | false => exact hf s hs hc hq hfill
        | true =>
          obtain ⟨hq1, hq2⟩ := (hadv s).quiet (State.steady_advances.setAside _ _) hq
          have hset := State.setAside_of_quiet hq2
          simp only [if_true, hset]
          exact hf s hs hc hq1 hfill
    · simp only [if_neg hc]
      exact hfill

theorem filled_run (hadv : ∀ g (s : State), s.Advances (call g s))
    (hlazy : ∀ g (s : State), s.Quiet (call g s) → (call g s).rest.length = s.rest.length → lazy g = true)
    (hcall : ∀ g (s : State), s.Quiet (call g s) → s.Filled → (call g s).Filled) (a : Action σ)
    {dirty must : Bool} {K : Know} {s : State} (h : a.fills lazy dirty must K = true) (hK : K.Holds s.toView)
    (hdirty : dirty = true → s.shown ≠ []) (hmust : must = true → (a.run call s).rest.length < s.rest.length)
    (hq : s.Quiet (a.run call s)) (hfill : s.Filled) : (a.run call s).Filled := by
  induction a generalizing dirty must K s with
  | skip => exact hfill
  | take => exact State.every_take hfill
  | takeAs k => exact State.every_takeAs k hfill
  | complain f => exact hfill
  | seq a b iha ihb =>
    simp only [fills, Bool.and_eq_true] at h
    have ha := a.advances hadv s
    obtain ⟨hqa, hqb⟩ := ha.quiet (b.advances hadv _) hq
    refine ihb h.2 (a.after_holds hK) ?_ (by simp) hqb (iha h.1 hK hdirty (by simp) hqa hfill)
    intro hd
    rw [Bool.or_eq_true] at hd
    obtain hd | hidle := hd
    · exact ha.shown_ne_nil (hdirty hd)
    · apply ha.shown_ne_nil_of_length
      have hle := ha.length_le
      have hne : (a.run call s).rest.length ≠ s.rest.length := by
        intro hr
        rw [idle_of_run hadv hlazy a hK hqa hr] at hidle
        simp at hidle
      omega
  | scope a ih =>
    exact State.every_enclose hfill
      (ih (s := { s with built := [] }) h hK (by simp) hmust hq (by simp [State.Filled, State.Every]))
  | wrap k a ih =>
    simp only [fills, Bool.and_eq_true] at h
    have ha := a.advances hadv s
    refine State.every_wrap k (ih h.2 hK hdirty hmust hq hfill) ?_
    obtain hd | hidle := Bool.or_eq_true_iff.mp h.1
    · obtain hd | hm := Bool.or_eq_true_iff.mp hd
      · exact ha.shown_ne_nil (hdirty hd)
      · exact ha.shown_ne_nil_of_length (hmust hm)
    · apply ha.shown_ne_nil_of_length
      have hle := ha.length_le
      have hne : (a.run call s).rest.length ≠ s.rest.length := by
        intro hr
        rw [idle_of_run hadv hlazy a hK hq hr] at hidle
        simp at hidle
      omega
  | branch c a b iha ihb =>
    simp only [fills, Bool.and_eq_true] at h
    rw [run] at hq hmust ⊢
    split
    · rename_i hc
      rw [if_pos hc] at hq hmust
      exact iha h.1 (Cond.learn_holds hc hK) hdirty hmust hq hfill
    · rename_i hc
      rw [if_neg hc] at hq hmust
      exact ihb h.2 (Cond.learn_holds (by simpa using hc) hK) hdirty hmust hq hfill
  | loop c a ih =>
    refine every_repeatWhile (P := fun s => dirty = true → s.shown ≠ []) (a.advances hadv) ?_ ?_ _ hdirty hq
      hfill
    · exact fun hadv hs hd => hadv.shown_ne_nil (hs hd)
    · exact fun t ht hc hqt hft => ih h (Cond.learn_holds hc (Know.holds_nothing _)) ht (by simp) hqt hft
  | commas strict c a ih =>
    refine every_repeatCommas (P := fun s => dirty = true → s.shown ≠ []) (a.advances hadv) ?_ ?_ strict _
      hdirty hq hfill
    · exact fun hadv hs hd => hadv.shown_ne_nil (hs hd)
    · exact fun t ht hc hqt hft => ih h (Cond.learn_holds hc (Know.holds_nothing _)) ht (by simp) hqt hft
  | progress a ih =>
    have ha := a.advances hadv s
    obtain ⟨hqa, hqb⟩ := ha.quiet (State.steady_advances.setAside _ _) hq
    have hset := State.setAside_of_quiet hqb
    rw [run, hset]
    refine ih h hK hdirty (fun hn => ?_) hqa hfill
    have := State.length_setAside ha (hK.rest_ne_nil hn)
    rwa [hset] at this
  | inQuery a ih =>
    exact ih (s := { s with queries := s.queries + 1 }) h ⟨hK.first, hK.second, hK.some⟩ hdirty hmust hq hfill
  | call g => exact hcall g s hq hfill

end Fills

theorem filled_runStrict {rule : σ → Action σ} {lazy : σ → Bool} (hl : LazyRules rule lazy)
    (hfills : ∀ g, (rule g).fills lazy false false {} = true) (n : Nat) (g : σ) (s : State)
    (hq : s.Quiet (runStrict rule n g s)) (hs : s.Filled) : (runStrict rule n g s).Filled := by
  induction n generalizing g s with
  | zero => exact hs
  | succ n ih =>
    exact filled_run (advances_runStrict rule n) (lazy_of_runStrict hl n) ih (rule g) (hfills g)
      (Know.holds_nothing _) (by simp) (by simp) hq hs

end Action

namespace Action

def nodes {σ : Type} : Action σ → List Kind
  | seq a b => a.nodes ++ b.nodes
  | scope a => a.nodes
  | wrap k a => k :: a.nodes
  | branch _ a b => a.nodes ++ b.nodes
  | loop _ a => a.nodes
  | commas _ _ a => a.nodes
  | progress a => a.nodes
  | inQuery a => a.nodes
  | _ => []

variable {σ : Type} {Q : Kind → List Outline → Prop} {call : σ → State → State}

def Keeps (Q : Kind → List Outline → Prop) (call : σ → State → State) (P : View → Prop) (a : Action σ) : Prop :=
  ∀ s : State, P s.toView → s.Quiet (a.run call s) → s.Every Q → (a.run call s).Every Q

theorem keeps_of_nodes (hadv : ∀ g (s : State), s.Advances (call g s))
    (hcall : ∀ g (s : State), s.Quiet (call g s) → s.Every Q → (call g s).Every Q) {P : View → Prop}
    {a : Action σ} (h : ∀ k ∈ a.nodes, ∀ cs, Q k cs) : Keeps Q call P a := by
  rintro s - hquiet hs
  induction a generalizing s with
  | skip => exact hs
  | take => exact State.every_take hs
  | takeAs k => exact State.every_takeAs k hs
  | complain f => exact hs
  | seq a b iha ihb =>
    obtain ⟨hqa, hqb⟩ := (a.advances hadv s).quiet (b.advances hadv _) hquiet
    exact ihb (fun k hk => h k (List.mem_append_right _ hk)) _ hqb
      (iha (fun k hk => h k (List.mem_append_left _ hk)) s hqa hs)
  | scope a ih => exact State.every_enclose hs (ih h { s with built := [] } hquiet (by simp [State.Every]))
  | wrap k a ih =>
    exact State.every_wrap k (ih (fun k hk => h k (List.mem_cons_of_mem _ hk)) s hquiet hs)
      (h k (List.mem_cons_self ..) _)
  | branch c a b iha ihb =>
    rw [run] at hquiet ⊢
    split
    · rename_i hc
      rw [if_pos hc] at hquiet
      exact iha (fun k hk => h k (List.mem_append_left _ hk)) s hquiet hs
    · rename_i hc
      rw [if_neg hc] at hquiet
      exact ihb (fun k hk => h k (List.mem_append_right _ hk)) s hquiet hs
  | loop c a ih =>
    exact every_repeatWhile (P := fun _ => True) (a.advances hadv) (fun _ _ => trivial)
      (fun t _ _ hqt ht => ih h t hqt ht) _ trivial hquiet hs
  | commas strict c a ih =>
    exact every_repeatCommas (P := fun _ => True) (a.advances hadv) (fun _ _ => trivial)
      (fun t _ _ hqt ht => ih h t hqt ht) strict _ trivial hquiet hs
  | progress a ih =>
    obtain ⟨hqa, hqb⟩ := (a.advances hadv s).quiet (State.steady_advances.setAside _ _) hquiet
    rw [run, State.setAside_of_quiet hqb]
    exact ih h s hqa hs
  | inQuery a ih => exact ih h { s with queries := s.queries + 1 } hquiet hs
  | call g => exact hcall g s hquiet hs

theorem Keeps.branch {P : View → Prop} {c : Cond} {a b : Action σ}
    (ha : Keeps Q call (fun v => P v ∧ c.holds v = true) a) (hb : Keeps Q call P b) :
    Keeps Q call P (.branch c a b) := by
  intro s hs hquiet hev
  rw [run] at hquiet ⊢
  by_cases hc : c.holds s.toView = true
  · rw [if_pos hc] at hquiet ⊢
    exact ha s ⟨hs, hc⟩ hquiet hev
  · rw [if_neg hc] at hquiet ⊢
    exact hb s hs hquiet hev

theorem Keeps.choose {call : Symbol → State → State} {P : View → Prop} {cases : List (Cond × Rule)}
    {otherwise : Rule} (hcases : ∀ c ∈ cases, Keeps Q call (fun v => P v ∧ c.1.holds v = true) c.2)
    (hother : Keeps Q call P otherwise) : Keeps Q call P (Rule.choose cases otherwise) := by
  induction cases with
  | nil => exact hother
  | cons c cases ih =>
    exact .branch (hcases c (List.mem_cons_self ..)) (ih (fun d hd => hcases d (List.mem_cons_of_mem _ hd)))

end Action

theorem rule_fills (g : Symbol) : (rule g).fills Symbol.lazy false false {} = true := by
  cases g <;> rfl

theorem filled_outline {items : List Item} (h : (outline items).2 = []) :
    Outline.EveryAll (fun _ cs => Outline.tokensAll cs ≠ []) (outline items).1 := by
  have hfill := Action.filled_runStrict lazyRules rule_fills _ _ _ (quiet_outline h)
    (by simp [State.Filled, State.Every])
  rw [runStrict_outline h] at hfill
  rw [Outline.everyAll_iff]
  exact fun o ho => hfill o (List.mem_reverse.mp ho)

end Grammar

end Lintel
