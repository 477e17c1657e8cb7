import Lintel.Proofs.CallDepth
import Lintel.Proofs.Derivations

/-!
Every run ends. What the tests on the way say about the next item decides whether an action takes one, complaints or
not. A construct ranks above those that it may start with, where the rank depends on the next item, and every round of a
loop takes an item; so the depth of calls is never used up.
-/

namespace Lintel

namespace Grammar

namespace Know

def alive (K : Know) : Bool :=
  Kind.all.any K.first

def ensures (K : Know) (p : Kind → Bool) : Bool :=
  Kind.all.all (fun k => !K.first k || p k)

variable {K : Know} {v : View}

theorem Holds.alive (h : K.Holds v) : K.alive = true :=
  List.any_eq_true.mpr ⟨v.kindAt 0, Kind.mem_all _, h.first⟩

theorem Holds.ensures {p : Kind → Bool} (h : K.Holds v) (hp : K.ensures p = true) : p (v.kindAt 0) = true := by
  have hk := List.all_eq_true.mp hp _ (Kind.mem_all (v.kindAt 0))
  rwa [h.first, Bool.not_true, Bool.false_or] at hk

end Know

namespace Action

variable {σ : Type}

def stays (starts : σ → Kind → Bool) : Action σ → Know → Bool
  | skip, K => K.alive
  | complain _, K => K.alive
  | take, K => !K.nonempty
  | takeAs _, K => !K.nonempty
  | seq a b, K => a.stays starts K && b.stays starts K
  | scope a, K => a.stays starts K
  | wrap _ a, K => a.stays starts K
  | branch c a b, K => a.stays starts (c.learn true K) || b.stays starts (c.learn false K)
  | loop _ _, _ => true
  | commas _ _ _, _ => true
  | progress _, K => !K.nonempty
  | inQuery a, K => a.stays starts K
  | call g, K => !K.ensures (starts g)

def loops : Action σ → List (Cond × Action σ)
  | seq a b => a.loops ++ b.loops
  | scope a => a.loops
  | wrap _ a => a.loops
  | branch _ a b => a.loops ++ b.loops
  | loop c a => (c, a) :: a.loops
  | commas _ _ a => a.loops
  | progress a => a.loops
  | inQuery a => a.loops
  | _ => []

def listsStop : Action σ → Bool
  | seq a b => a.listsStop && b.listsStop
  | scope a => a.listsStop
  | wrap _ a => a.listsStop
  | branch _ a b => a.listsStop && b.listsStop
  | loop _ a => a.listsStop
  | commas _ c a => (c.learn true {}).nonempty && a.listsStop
  | progress a => a.listsStop
  | inQuery a => a.listsStop
  | _ => true

/-- The calls that an action makes before it takes an item are to actions of a lower rank. A named action has one rank
before the items that it starts with, and another one elsewhere. -/
def descends (starts : σ → Kind → Bool) (rank : Bool → σ → Nat) (r : Nat) : Action σ → Know → Bool
  | seq a b, K => a.descends starts rank r K && (!a.stays starts K || b.descends starts rank r K)
  | scope a, K => a.descends starts rank r K
  | wrap _ a, K => a.descends starts rank r K
  | branch c a b, K => a.descends starts rank r (c.learn true K) && b.descends starts rank r (c.learn false K)
  | loop c a, K => a.descends starts rank r { c.learn true K with some := true }
  | commas _ c a, K => a.descends starts rank r (c.learn true K)
  | progress a, K => a.descends starts rank r K
  | inQuery a, K => a.descends starts rank r K
  | call g, K => rank true g < r && (rank false g < r || K.ensures (starts g))
  | _, _ => true

end Action

namespace Runs

variable {σ : Type} {rule : σ → Action σ} {starts : σ → Kind → Bool} {n : Nat}

theorem stays_of_length (hstarts : ∀ g k, starts g k = true → (rule g).stays starts { first := starts g } = false)
    {a : Action σ} {s t : State} (h : Runs rule n a s t) {K : Know} (hK : K.Holds s.toView)
    (hr : t.rest.length = s.rest.length) : a.stays starts K = true := by
  induction h generalizing K with
  | skip s | complain f s => exact hK.alive
  | take s =>
    cases hn : K.nonempty with
    | false => simp [Action.stays, hn]
    | true =>
      have := State.length_take (hK.rest_ne_nil hn)
      omega
  | takeAs k s =>
    cases hn : K.nonempty with
    | false => simp [Action.stays, hn]
    | true =>
      have := State.length_takeAs k (hK.rest_ne_nil hn)
      omega
  | seq ha hb iha ihb =>
    have hla := ha.advances.length_le
    have hlb := hb.advances.length_le
    have hview := ha.advances.view_eq (by omega)
    rw [Action.stays, iha hK (by omega), ihb (by rw [hview]; exact hK) (by omega)]
    rfl
  | scope _ ih => exact ih hK hr
  | wrap _ ih => exact ih hK hr
  | branch_true hc _ ih => rw [Action.stays, ih (Cond.learn_holds hc hK) hr, Bool.true_or]
  | branch_false hc _ ih => rw [Action.stays, ih (Cond.learn_holds hc hK) hr, Bool.or_true]
  | loop_false _ | loop_true _ _ _ _ _ | commas_none _ | commas_next _ _ _ _ _ _ | commas_last _ _ _ _
  | commas_stop _ _ _ _ => rfl
  | progress ha _ =>
    cases hn : K.nonempty with
    | false => simp [Action.stays, hn]
    | true =>
      have := State.length_setAside ha.advances (hK.rest_ne_nil hn)
      omega
  | inQuery _ ih => exact ih ⟨hK.first, hK.second, hK.some⟩ hr
  | @call n g s t _ ih =>
    rw [Action.stays, Bool.not_eq_true']
    by_contra hall
    have hk := hK.ensures (Bool.not_eq_false _ ▸ hall)
    have hstays := ih (K := { first := starts g }) ⟨hk, rfl, by simp⟩ hr
    rw [hstarts g _ hk] at hstays
    cases hstays

def Marches (rule : σ → Action σ) (x : Cond × Action σ) : Prop :=
  ∀ s : State, x.1.holds s.toView = true →
    s.rest ≠ [] ∧ ∀ (n : Nat) (t : State), Runs rule n x.2 s t → t.rest.length < s.rest.length

def Within (starts : σ → Kind → Bool) (rank : Bool → σ → Nat) (r m : Nat) (a : Action σ) (K : Know) (s : State) :
    Prop :=
  s.rest.length < m ∨ s.rest.length = m ∧ K.Holds s.toView ∧ a.descends starts rank r K = true

section Ends

variable {rank : Bool → σ → Nat} {r m : Nat} {named : σ → State → State}

theorem Within.learn {a b : Action σ} {K : Know} {s : State} (h : Within starts rank r m a K s) {c : Cond} {x : Bool}
    (hc : c.holds s.toView = x)
    (hb : a.descends starts rank r K = true → b.descends starts rank r (c.learn x K) = true) :
    Within starts rank r m b (c.learn x K) s := by
  obtain hlt | ⟨hm, hK, ha⟩ := h
  · exact .inl hlt
  · exact .inr ⟨hm, Cond.learn_holds hc hK, hb ha⟩

theorem repeatWhile_ends {c : Cond} {a : Action σ} {f : State → State} {P : State → Prop} (hmarch : Marches rule (c, a))
    (hf : ∀ s : State, P s → c.holds s.toView = true → Runs rule n a s (f s))
    (hP : ∀ s : State, P s → (f s).rest.length < s.rest.length → P (f s)) (m : Nat) {s : State}
    (hm : s.rest.length ≤ m) (hs : P s) : Runs rule n (.loop c a) s (State.repeatWhile c f m s) := by
  induction m generalizing s with
  | zero =>
    apply loop_false
    rw [← Bool.not_eq_true]
    intro hc
    exact (hmarch s hc).1 (List.length_eq_zero_iff.mp (by omega))
  | succ m ih =>
    rw [State.repeatWhile]
    split
    · rename_i hc
      have hlt := (hmarch s hc).2 _ _ (hf s hs hc)
      exact loop_true hc (hf s hs hc) (ih (by omega) (hP s hs hlt))
    · rename_i hc
      exact loop_false (by simpa using hc)

theorem repeatCommas_ends {c : Cond} {a : Action σ} {f : State → State} {P : State → Prop}
    (hstop : (c.learn true {}).nonempty = true) (hadv : ∀ s : State, s.Advances (f s))
    (hf : ∀ s : State, P s → c.holds s.toView = true → Runs rule n a s (f s))
    (hP : ∀ s : State, P s → (f s).take.rest.length < s.rest.length → P (f s).take) (strict : Bool) (m : Nat)
    {s : State}
    (hm : s.rest.length ≤ m) (hs : P s) : Runs rule n (.commas strict c a) s (State.repeatCommas strict c f m s) := by
  induction m generalizing s with
  | zero =>
    apply commas_none
    rw [← Bool.not_eq_true]
    intro hc
    apply (Cond.learn_holds hc (Know.holds_nothing _)).rest_ne_nil hstop
    exact List.length_eq_zero_iff.mp (by omega)
  | succ m ih =>
    rw [State.repeatCommas]
    by_cases hc : c.holds s.toView = true
    · simp only [if_pos hc]
      by_cases hcomma : (f s).kindAt 0 = .comma
      · rw [if_pos (by simpa using hcomma)]
        have hne : (f s).rest ≠ [] := by
          intro hnil
          simp [View.kindAt, hnil] at hcomma
        have hlt := State.length_take hne
        have hle := (hadv s).length_le
        exact commas_next hc (hf s hs hc) hcomma (ih (by omega) (hP s hs (by omega)))
      · rw [if_neg (by simpa using hcomma)]
        cases strict with
        | false => exact commas_last hc (hf s hs hc) hcomma
        | true => exact commas_stop hc (hf s hs hc) hcomma
    · simp only [if_neg hc]
      exact commas_none (by simpa using hc)

theorem ends_of_calls (hstarts : ∀ g k, starts g k = true → (rule g).stays starts { first := starts g } = false)
    (hnamed : ∀ g (s : State), s.Advances (named g s))
    (hcall : ∀ g (s : State), (s.rest.length < m ∨ s.rest.length = m ∧ rank (starts g (s.kindAt 0)) g < r) →
      Runs rule n (.call g) s (named g s))
    (a : Action σ) (hloops : ∀ x ∈ a.loops, Marches rule x) (hlists : a.listsStop = true) {K : Know} {s : State}
    (h : Within starts rank r m a K s) : Runs rule n a s (a.run named s) := by
  induction a generalizing K s with
  | skip => exact .skip s
  | take => exact .take s
  | takeAs k => exact .takeAs k s
  | complain f => exact .complain f s
  | seq a b iha ihb =>
    rw [Action.listsStop, Bool.and_eq_true] at hlists
    simp only [Action.loops, List.forall_mem_append] at hloops
    have hfirst : Within starts rank r m a K s := by
      obtain hlt | ⟨hm, hK, hd⟩ := h
      · exact .inl hlt
      · rw [Action.descends, Bool.and_eq_true] at hd
        exact .inr ⟨hm, hK, hd.1⟩
    have ha := iha hloops.1 hlists.1 hfirst
    apply seq ha (ihb hloops.2 hlists.2 (K := K) _)
    have hle := ha.advances.length_le
    obtain hlt | ⟨hm, hK, hd⟩ := h
    · exact .inl (by omega)
    · by_cases hstay : (a.run named s).rest.length = s.rest.length
      · rw [Action.descends, ha.stays_of_length hstarts hK hstay, Bool.not_true, Bool.false_or, Bool.and_eq_true] at hd
        refine .inr ⟨by omega, ?_, hd.2⟩
        rw [ha.advances.view_eq hstay]
        exact hK
      · exact .inl (by omega)
  | scope a ih => exact scope (ih hloops hlists (s := { s with built := [] }) h)
  | wrap k a ih => exact wrap (ih hloops hlists h)
  | branch c a b iha ihb =>
    rw [Action.listsStop, Bool.and_eq_true] at hlists
    simp only [Action.loops, List.forall_mem_append] at hloops
    rw [Action.run]
    split
    · rename_i hc
      apply branch_true hc (iha hloops.1 hlists.1 (h.learn hc (fun hd => ?_)))
      rw [Action.descends, Bool.and_eq_true] at hd
      exact hd.1
    · rename_i hc
      have hc : c.holds s.toView = false := by simpa using hc
      apply branch_false hc (ihb hloops.2 hlists.2 (h.learn hc (fun hd => ?_)))
      rw [Action.descends, Bool.and_eq_true] at hd
      exact hd.2
  | loop c a ih =>
    simp only [Action.loops, List.forall_mem_cons] at hloops
    -- Only the first round starts with as many items as the loop.
    refine repeatWhile_ends (P := Within starts rank r m (.loop c a) K) hloops.1 (fun t ht hc => ?_)
      (fun t ht hlt => ?_) _
      (Nat.le_refl _) h
    · apply ih hloops.2 hlists (K := { c.learn true K with some := true }) _
      obtain hm | ⟨hm, hK, hd⟩ := ht
      · exact .inl hm
      · have hlearn := Cond.learn_holds hc hK
        exact .inr ⟨hm, ⟨hlearn.first, hlearn.second, fun _ => (hloops.1 t hc).1⟩, hd⟩
    · obtain hm | ⟨hm, -⟩ := ht
      · exact .inl (by omega)
      · exact .inl (by omega)
  | commas strict c a ih =>
    rw [Action.listsStop, Bool.and_eq_true] at hlists
    refine repeatCommas_ends (P := Within starts rank r m (.commas strict c a) K) hlists.1 (a.advances hnamed)
      (fun t ht hc => ?_) (fun t ht hlt => ?_) strict _ (Nat.le_refl _) h
    · exact ih hloops hlists.2 (ht.learn hc (fun hd => hd))
    · obtain hm | ⟨hm, -⟩ := ht
      · exact .inl (by omega)
      · exact .inl (by omega)
  | progress a ih => exact progress (ih hloops hlists h)
  | inQuery a ih =>
    apply inQuery (ih hloops hlists (K := K) _)
    obtain hlt | ⟨hm, hK, hd⟩ := h
    · exact .inl hlt
    · exact .inr ⟨hm, ⟨hK.first, hK.second, hK.some⟩, hd⟩
  | call g =>
    apply hcall g s
    obtain hlt | ⟨hm, hK, hd⟩ := h
    · exact .inl hlt
    · simp only [Action.descends, Bool.and_eq_true, Bool.or_eq_true, decide_eq_true_eq] at hd
      refine .inr ⟨hm, ?_⟩
      cases hk : starts g (s.kindAt 0) with
      | true => exact hd.1
      | false =>
        obtain hlt | hensure := hd.2
        · exact hlt
        · rw [hK.ensures hensure] at hk
          cases hk

end Ends

end Runs

namespace Symbol

def starts : Symbol → Kind → Bool
  | .block | .initializer | .accessorList => (· == .lBrace)
  | .argumentList | .parameterList => (· == .lParen)
  | .bracketedArgumentList | .bracketedParameterList => (· == .lBracket)
  | .typeArgumentList => (· == .lt)
  | .lambda => fun k => k == .ident || k == .lParen
  | .type _ | .plainType => fun k => k == .ident || k.isPredefinedType
  | .query | .creation | .namespaceDecl | .usingDirective | .typeParameterList => (· != .eof)
  | _ => fun _ => false

def goesOn : Symbol → Bool
  | .block | .initializer | .accessorList | .argumentList | .parameterList | .bracketedArgumentList
  | .bracketedParameterList | .typeArgumentList | .lambda | .query | .namespaceDecl => true
  | _ => false

def rankWhen (starting : Bool) (g : Symbol) : Nat :=
  if starting || !g.goesOn then g.rank else g.rank + 16

theorem rankWhen_lt (starting : Bool) (g : Symbol) : g.rankWhen starting < 64 := by
  have hrank : g.rank < 16 := by cases g <;> simp [rank]
  rw [rankWhen]
  split <;> omega

end Symbol

theorem rule_starts (g : Symbol) (k : Kind) (h : g.starts k = true) :
    (rule g).stays Symbol.starts { first := g.starts } = false := by
  cases g with
  | type inExpression => cases inExpression <;> decide +kernel
  | _ => first | cases h | decide +kernel

theorem rule_listsStop (g : Symbol) : (rule g).listsStop = true := by
  cases g <;> rfl

theorem binary_descends (level r : Nat) (K : Know) :
    (Rule.binary level).descends Symbol.starts Symbol.rankWhen r K =
      (Rule.binary 0).descends Symbol.starts Symbol.rankWhen r K :=
  rfl

theorem rule_descends {g : Symbol} (hg : g ≠ .assignment) (starting : Bool) :
    (rule g).descends Symbol.starts Symbol.rankWhen (g.rankWhen starting)
      { first := fun k => g.starts k == starting } = true := by
  have hall : ∀ g ∈ Symbol.without [.assignment], ∀ starting ∈ [true, false],
      (rule g).descends Symbol.starts Symbol.rankWhen (g.rankWhen starting)
        { first := fun k => g.starts k == starting } = true := by decide +kernel
  have hmem : starting ∈ [true, false] := by cases starting <;> decide
  cases g with
  | assignment => exact absurd rfl hg
  | type inExpression => cases inExpression <;> exact hall _ (by decide) starting hmem
  | binary level =>
    cases starting with
    | true => exact (binary_descends level 7 { first := fun _ => false }).trans (by decide +kernel)
    | false => exact (binary_descends level 7 { first := fun _ => true }).trans (by decide +kernel)
  | _ => exact hall _ (by decide) starting hmem

namespace Runs

variable {n : Nat}

theorem of_choose {cases : List (Cond × Rule)} {otherwise : Rule} {s t : State}
    (h : Runs rule n (Rule.choose cases otherwise) s t) :
    (∃ x ∈ cases, x.1.holds s.toView = true ∧ Runs rule n x.2 s t) ∨
      (∀ x ∈ cases, x.1.holds s.toView = false) ∧ Runs rule n otherwise s t := by
  induction cases with
  | nil => exact .inr ⟨by simp, h⟩
  | cons x cases ih =>
    cases h with
    | branch_true hc ha => exact .inl ⟨x, List.mem_cons_self, hc, ha⟩
    | branch_false hc ha =>
      obtain ⟨y, hy, hrun⟩ | ⟨hnone, hrun⟩ := ih ha
      · exact .inl ⟨y, List.mem_cons_of_mem _ hy, hrun⟩
      · exact .inr ⟨List.forall_mem_cons.mpr ⟨hc, hnone⟩, hrun⟩

theorem length_lt {a : Rule} {s t : State} (h : Runs rule n a s t) {K : Know} (hK : K.Holds s.toView)
    (ha : a.stays Symbol.starts K = false) : t.rest.length < s.rest.length := by
  have hle := h.advances.length_le
  have hne : t.rest.length ≠ s.rest.length := by
    intro hr
    rw [h.stays_of_length rule_starts hK hr] at ha
    cases ha
  omega

theorem marches_of_stays {x : Cond × Rule}
    (hx : ((x.1.learn true {}).nonempty && !x.2.stays Symbol.starts (x.1.learn true {})) = true) : Marches rule x := by
  intro s hc
  rw [Bool.and_eq_true, Bool.not_eq_true'] at hx
  have hK := Cond.learn_holds hc (Know.holds_nothing _)
  exact ⟨hK.rest_ne_nil hx.1, fun n t h => h.length_lt hK hx.2⟩

end Runs

end Grammar

end Lintel
