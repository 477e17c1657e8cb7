import Lintel.Proofs.Runs

/-!
Runs without complaints. What the tests passed on the way say about the next two items decides whether an
action takes anything; from it follows that the depth of calls is never used up, so that a run without
complaints is one of the strict runs, which complain when it is.
-/

namespace Lintel.Grammar

/-- What is known of a view: the kinds that the next two items may have, and whether there is one. -/
structure Know where
  first : Kind → Bool := fun _ => true
  second : Kind → Bool := fun _ => true
  some : Bool := false

namespace Know

structure Holds (K : Know) (v : View) : Prop where
  first : K.first (v.kindAt 0) = true
  second : K.second (v.kindAt 1) = true
  some : K.some = true → v.rest ≠ []

def join (K L : Know) : Know where
  first k := K.first k || L.first k
  second k := K.second k || L.second k
  some := K.some && L.some

def nonempty (K : Know) : Bool :=
  K.some || !K.first .eof || !K.second .eof

theorem holds_nothing (v : View) : Holds {} v :=
  ⟨rfl, rfl, by simp⟩

theorem Holds.join_left {K L : Know} {v : View} (h : K.Holds v) : (K.join L).Holds v :=
  ⟨by simp [join, h.first], by simp [join, h.second],
    fun hs => h.some (by simp only [join, Bool.and_eq_true] at hs; exact hs.1)⟩

theorem Holds.join_right {K L : Know} {v : View} (h : L.Holds v) : (K.join L).Holds v :=
  ⟨by simp [join, h.first], by simp [join, h.second],
    fun hs => h.some (by simp only [join, Bool.and_eq_true] at hs; exact hs.2)⟩

theorem Holds.rest_ne_nil {K : Know} {v : View} (h : K.Holds v) (hn : K.nonempty = true) : v.rest ≠ [] := by
  intro hr
  have h0 : v.kindAt 0 = .eof := by simp [View.kindAt, hr]
  have h1 : v.kindAt 1 = .eof := by simp [View.kindAt, hr]
  have hf := h.first
  have hs := h.second
  rw [h0] at hf
  rw [h1] at hs
  simp only [nonempty, hf, hs, Bool.not_true, Bool.or_false] at hn
  exact h.some hn hr

end Know

def Cond.learn (b : Bool) : Cond → Know → Know
  | ahead 0 p, K => { K with first := fun k => K.first k && (p k == b) }
  | ahead 1 p, K => { K with second := fun k => K.second k && (p k == b) }
  | ahead _ _, K => K
  | word _, K => if b then { K with first := fun k => K.first k && k == .ident } else K
  | done, K => if b then { K with first := fun k => K.first k && k == .eof } else { K with some := true }
  | look _, K => K
  | not c, K => c.learn (!b) K
  | and c d, K => if b then d.learn b (c.learn b K) else (c.learn b K).join (d.learn b K)
  | or c d, K => if b then (c.learn b K).join (d.learn b K) else d.learn b (c.learn b K)

theorem Cond.learn_holds {b : Bool} {c : Cond} {K : Know} {v : View} (hc : c.holds v = b)
    (hK : K.Holds v) : (c.learn b K).Holds v := by
  induction c generalizing b K with
  | ahead n p =>
    match n with
    | 0 => exact ⟨by simpa [learn, hK.first, holds] using hc, hK.second, hK.some⟩
    | 1 => exact ⟨hK.first, by simpa [learn, hK.second, holds] using hc, hK.some⟩
    | _ + 2 => exact hK
  | word w =>
    cases b with
    | false => exact hK
    | true =>
      simp only [holds, View.isName, Bool.and_eq_true, beq_iff_eq] at hc
      have hf := hK.first
      rw [hc.1] at hf
      exact ⟨by simp [learn, hc.1, hf], hK.second, hK.some⟩
  | done =>
    simp only [holds] at hc
    cases b with
    | false => exact ⟨hK.first, hK.second, fun _ hr => by simp [hr] at hc⟩
    | true =>
      have hk : v.kindAt 0 = .eof := by simp [View.kindAt, List.isEmpty_iff.mp hc]
      have hf := hK.first
      rw [hk] at hf
      exact ⟨by simp [learn, hk, hf], hK.second, hK.some⟩
  | look f => exact hK
  | not c ih => exact ih (by simpa [holds] using hc) hK
  | and c d ihc ihd =>
    simp only [holds] at hc
    cases b with
    | true =>
      rw [Bool.and_eq_true] at hc
      exact ihd hc.2 (ihc hc.1 hK)
    | false =>
      obtain hc | hc := Bool.and_eq_false_iff.mp hc
      · exact (ihc hc hK).join_left
      · exact (ihd hc hK).join_right
  | or c d ihc ihd =>
    simp only [holds] at hc
    cases b with
    | true =>
      obtain hc | hc := Bool.or_eq_true_iff.mp hc
      · exact (ihc hc hK).join_left
      · exact (ihd hc hK).join_right
    | false =>
      rw [Bool.or_eq_false_iff] at hc
      exact ihd hc.2 (ihc hc.1 hK)

namespace Action

variable {σ : Type}

/-- Whether an action may take nothing without a complaint. `lazy` says so of the named actions. -/
def idle (lazy : σ → Bool) : Action σ → Know → Bool
  | skip, _ => true
  | take, K => !K.nonempty
  | takeAs _, K => !K.nonempty
  | complain _, _ => false
  | seq a b, K => a.idle lazy K && b.idle lazy K
  | scope a, K => a.idle lazy K
  | wrap _ a, K => a.idle lazy K
  | branch c a b, K => a.idle lazy (c.learn true K) || b.idle lazy (c.learn false K)
  | loop _ _, _ => true
  | commas _ _ _, _ => true
  | progress _, K => !K.nonempty
  | inQuery a, K => a.idle lazy K
  | call g, _ => lazy g

def after : Action σ → Know → Know
  | skip, K => K
  | complain _, K => K
  | take, K => if K.nonempty then { first := K.second } else {}
  | takeAs _, K => if K.nonempty then { first := K.second } else {}
  | seq a b, K => b.after (a.after K)
  | scope a, K => a.after K
  | wrap _ a, K => a.after K
  | _, _ => {}

end Action

namespace State

def Quiet (s t : State) : Prop :=
  t.complaints = s.complaints

theorem Advances.quiet {s t u : State} (h : s.Advances t) (h' : t.Advances u) (hq : s.Quiet u) :
    s.Quiet t ∧ t.Quiet u := by
  obtain ⟨-, ⟨cs, hc⟩, -⟩ := h
  obtain ⟨-, ⟨cs', hc'⟩, -⟩ := h'
  have hnil : cs' ++ cs = [] := by
    have : u.complaints = s.complaints := hq
    rw [hc', hc, ← List.append_assoc] at this
    exact List.append_left_eq_self.mp this
  obtain ⟨rfl, rfl⟩ := List.append_eq_nil_iff.mp hnil
  exact ⟨hc, hc'⟩

end State

namespace State

theorem length_take {s : State} (h : s.rest ≠ []) : s.take.rest.length < s.rest.length := by
  obtain ⟨i, rest, hr⟩ := List.exists_cons_of_ne_nil h
  simp [take, hr]

theorem length_takeAs {s : State} (k : Kind) (h : s.rest ≠ []) :
    (s.takeAs k).rest.length < s.rest.length := by
  obtain ⟨i, rest, hr⟩ := List.exists_cons_of_ne_nil h
  simp [takeAs, hr]

end State

namespace Action

variable {σ : Type} {lazy : σ → Bool} {call : σ → State → State}

theorem idle_of_run (hadv : ∀ g (s : State), s.Advances (call g s))
    (hlazy : ∀ g (s : State), s.Quiet (call g s) → (call g s).rest.length = s.rest.length → lazy g = true)
    (a : Action σ) {K : Know} {s : State} (hK : K.Holds s.toView) (hq : s.Quiet (a.run call s))
    (hr : (a.run call s).rest.length = s.rest.length) : a.idle lazy K = true := by
  induction a generalizing K s with
  | skip => rfl
  | take =>
    cases hn : K.nonempty with
    | false => simp [idle, hn]
    | true =>
      have := State.length_take (hK.rest_ne_nil hn)
      rw [run] at hr
      omega
  | takeAs k =>
    cases hn : K.nonempty with
    | false => simp [idle, hn]
    | true =>
      have := State.length_takeAs k (hK.rest_ne_nil hn)
      rw [run] at hr
      omega
  | complain f => simp [State.Quiet, run, State.complain] at hq
  | seq a b iha ihb =>
    have ha := a.advances hadv s
    have hb := b.advances hadv (a.run call s)
    obtain ⟨hqa, hqb⟩ := ha.quiet hb hq
    have hla := ha.length_le
    have hlb := hb.length_le
    rw [run] at hr
    have hra : (a.run call s).rest.length = s.rest.length := by omega
    have hrb : (b.run call (a.run call s)).rest.length = (a.run call s).rest.length := by omega
    have hKb : K.Holds (a.run call s).toView := by
      rw [ha.view_eq hra]
      exact hK
    simp [idle, iha hK hqa hra, ihb hKb hqb hrb]
  | scope a ih => exact ih (s := { s with built := [] }) hK hq hr
  | wrap k a ih => exact ih hK hq hr
  | branch c a b iha ihb =>
    rw [run] at hq hr
    simp only [idle, Bool.or_eq_true]
    by_cases hc : c.holds s.toView = true
    · rw [if_pos hc] at hq hr
      exact .inl (iha (Cond.learn_holds hc hK) hq hr)
    · rw [if_neg hc] at hq hr
      exact .inr (ihb (Cond.learn_holds (by simpa using hc) hK) hq hr)
  | loop c a ih => rfl
  | commas strict c a ih => rfl
  | progress a ih =>
    cases hn : K.nonempty with
    | false => simp [idle, hn]
    | true =>
      have := State.length_setAside (a.advances hadv s) (hK.rest_ne_nil hn)
      rw [run] at hr
      omega
  | inQuery a ih =>
    exact ih (s := { s with queries := s.queries + 1 }) ⟨hK.first, hK.second, hK.some⟩ hq hr
  | call g => exact hlazy g s hq hr

theorem holds_take {K : Know} {s : State} (hK : K.Holds s.toView) {t : State}
    (ht : ∀ i rest, s.rest = i :: rest → t.rest = rest) :
    (if K.nonempty then { first := K.second } else {} : Know).Holds t.toView := by
  split
  · rename_i hn
    obtain ⟨i, rest, hr⟩ := List.exists_cons_of_ne_nil (hK.rest_ne_nil hn)
    have hsecond := hK.second
    refine ⟨?_, rfl, by simp⟩
    simpa [View.kindAt, hr, ht i rest hr] using hsecond
  · exact Know.holds_nothing _

theorem after_holds (a : Action σ) {K : Know} {s : State} (hK : K.Holds s.toView) :
    (a.after K).Holds (a.run call s).toView := by
  induction a generalizing K s with
  | skip => exact hK
  | complain f => exact hK
  | take => exact holds_take hK (fun i rest hr => by simp [run, State.take, hr])
  | takeAs k => exact holds_take hK (fun i rest hr => by simp [run, State.takeAs, hr])
  | seq a b iha ihb => exact ihb (iha hK)
  | scope a ih => exact ih (s := { s with built := [] }) hK
  | wrap k a ih => exact ih hK
  | _ => exact Know.holds_nothing _

end Action

end Lintel.Grammar
