import Lintel.Proofs.TokenAccounting

/-!
What it means for an action to come to an end. A derivation of a run tells how deep its calls are nested; it has no
bound on the rounds of a loop. Where there is one, the action ends, and in one state only.
-/

namespace Lintel.Grammar

variable {σ : Type}

/-- An action, started in one state, ends in another, with calls nested no deeper than `n`. -/
inductive Runs (rule : σ → Action σ) : (n : Nat) → Action σ → State → State → Prop
  | skip {n : Nat} (s : State) : Runs rule n .skip s s
  | take {n : Nat} (s : State) : Runs rule n .take s s.take
  | takeAs {n : Nat} (k : Kind) (s : State) : Runs rule n (.takeAs k) s (s.takeAs k)
  | complain {n : Nat} (f : GrammarFault) (s : State) : Runs rule n (.complain f) s (s.complain f)
  | seq {n : Nat} {a b : Action σ} {s t u : State} : Runs rule n a s t → Runs rule n b t u → Runs rule n (.seq a b) s u
  | scope {n : Nat} {a : Action σ} {s t : State} : Runs rule n a { s with built := [] } t →
      Runs rule n (.scope a) s { t with built := t.built ++ .gap :: s.built }
  | wrap {n : Nat} {k : Kind} {a : Action σ} {s t : State} : Runs rule n a s t → Runs rule n (.wrap k a) s (t.wrap k)
  | branch_true {n : Nat} {c : Cond} {a b : Action σ} {s t : State} : c.holds s.toView = true → Runs rule n a s t →
      Runs rule n (.branch c a b) s t
  | branch_false {n : Nat} {c : Cond} {a b : Action σ} {s t : State} : c.holds s.toView = false → Runs rule n b s t →
      Runs rule n (.branch c a b) s t
  | loop_false {n : Nat} {c : Cond} {a : Action σ} {s : State} : c.holds s.toView = false → Runs rule n (.loop c a) s s
  | loop_true {n : Nat} {c : Cond} {a : Action σ} {s t u : State} : c.holds s.toView = true → Runs rule n a s t →
      Runs rule n (.loop c a) t u → Runs rule n (.loop c a) s u
  | commas_none {n : Nat} {strict : Bool} {c : Cond} {a : Action σ} {s : State} : c.holds s.toView = false →
      Runs rule n (.commas strict c a) s s
  | commas_next {n : Nat} {strict : Bool} {c : Cond} {a : Action σ} {s t u : State} : c.holds s.toView = true →
      Runs rule n a s t → t.kindAt 0 = .comma → Runs rule n (.commas strict c a) t.take u →
      Runs rule n (.commas strict c a) s u
  | commas_last {n : Nat} {c : Cond} {a : Action σ} {s t : State} : c.holds s.toView = true → Runs rule n a s t →
      t.kindAt 0 ≠ .comma → Runs rule n (.commas false c a) s t
  | commas_stop {n : Nat} {c : Cond} {a : Action σ} {s t : State} : c.holds s.toView = true → Runs rule n a s t →
      t.kindAt 0 ≠ .comma → Runs rule n (.commas true c a) s (t.setAside s.taken)
  | progress {n : Nat} {a : Action σ} {s t : State} : Runs rule n a s t →
      Runs rule n (.progress a) s (t.setAside s.taken)
  | inQuery {n : Nat} {a : Action σ} {s t : State} : Runs rule n a { s with queries := s.queries + 1 } t →
      Runs rule n (.inQuery a) s { t with queries := s.queries }
  | call {n : Nat} {g : σ} {s t : State} : Runs rule n (rule g) s t → Runs rule (n + 1) (.call g) s t

theorem Steady.runs {R : State → State → Prop} (hR : Steady (fun _ _ => True) R) {rule : σ → Action σ} {n : Nat}
    {a : Action σ} {s t : State} (h : Runs rule n a s t) : R s t := by
  induction h with
  | skip s => exact hR.refl s
  | take s => exact hR.take s
  | takeAs k s => exact hR.takeAs trivial
  | complain f s => exact hR.complain f s
  | seq _ _ iha ihb => exact hR.trans iha ihb
  | @scope n a s t _ ih => exact hR.enclose (f := fun _ => t) ih
  | wrap _ ih => exact hR.trans ih (hR.wrap _ _)
  | branch_true _ _ ih | branch_false _ _ ih => exact ih
  | loop_false _ | commas_none _ => exact hR.refl _
  | loop_true _ _ _ iha ihb => exact hR.trans iha ihb
  | commas_next _ _ _ _ iha ihb => exact hR.trans iha (hR.trans (hR.take _) ihb)
  | commas_last _ _ _ ih => exact ih
  | commas_stop _ _ _ ih => exact hR.trans ih (hR.setAside _ _)
  | progress _ ih => exact hR.trans ih (hR.setAside _ _)
  | inQuery _ ih => exact hR.inQuery ih
  | call _ ih => exact ih

namespace Runs

variable {rule : σ → Action σ} {n m : Nat} {a : Action σ} {s t u : State}

theorem advances (h : Runs rule n a s t) : s.Advances t :=
  State.steady_advances.runs h

theorem deterministic (h : Runs rule n a s t) (h' : Runs rule m a s u) : t = u := by
  induction h generalizing m u with
  | skip s | take s | takeAs k s | complain f s => cases h'; rfl
  | seq _ _ iha ihb =>
    cases h' with
    | seq ha hb =>
      obtain rfl := iha ha
      exact ihb hb
  | scope _ ih =>
    cases h' with
    | scope ha => rw [ih ha]
  | wrap _ ih =>
    cases h' with
    | wrap ha => rw [ih ha]
  | branch_true hc _ ih =>
    cases h' with
    | branch_true _ ha => exact ih ha
    | branch_false hc' _ => rw [hc] at hc'; cases hc'
  | branch_false hc _ ih =>
    cases h' with
    | branch_true hc' _ => rw [hc] at hc'; cases hc'
    | branch_false _ ha => exact ih ha
  | loop_false hc =>
    cases h' with
    | loop_false _ => rfl
    | loop_true hc' _ _ => rw [hc] at hc'; cases hc'
  | loop_true hc _ _ iha ihb =>
    cases h' with
    | loop_false hc' => rw [hc] at hc'; cases hc'
    | loop_true _ ha hb =>
      obtain rfl := iha ha
      exact ihb hb
  | commas_none hc =>
    cases h' with
    | commas_none _ => rfl
    | commas_next hc' _ _ _ | commas_last hc' _ _ | commas_stop hc' _ _ => rw [hc] at hc'; cases hc'
  | commas_next hc _ hcomma _ iha ihb =>
    cases h' with
    | commas_none hc' => rw [hc] at hc'; cases hc'
    | commas_next _ ha _ hb =>
      obtain rfl := iha ha
      exact ihb hb
    | commas_last _ ha hlast | commas_stop _ ha hlast =>
      obtain rfl := iha ha
      exact absurd hcomma hlast
  | commas_last hc _ hlast ih =>
    cases h' with
    | commas_none hc' => rw [hc] at hc'; cases hc'
    | commas_next _ ha hcomma _ =>
      obtain rfl := ih ha
      exact absurd hcomma hlast
    | commas_last _ ha _ => exact ih ha
  | commas_stop hc _ hlast ih =>
    cases h' with
    | commas_none hc' => rw [hc] at hc'; cases hc'
    | commas_next _ ha hcomma _ =>
      obtain rfl := ih ha
      exact absurd hcomma hlast
    | commas_stop _ ha _ => rw [ih ha]
  | progress _ ih =>
    cases h' with
    | progress ha => rw [ih ha]
  | inQuery _ ih =>
    cases h' with
    | inQuery ha => rw [ih ha]
  | call _ ih =>
    cases h' with
    | call ha => exact ih ha

end Runs

end Lintel.Grammar
