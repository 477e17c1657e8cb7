import Lintel.Proofs.NodeContents
import Lintel.Proofs.TypeLookahead

/-!
What may stand after certain tokens. In a run without complaints some tokens are followed only by items of
certain kinds; an analysis of the rules shows it, with a few rules looked at by hand.
-/

namespace Lintel.Grammar

/-- Tokens of the `hot` kinds are to be followed by items of which `sign` holds. `signed` is a test that all
kinds in a set are such. -/
structure Watch where
  hot : List Kind
  sign : Kind → Prop
  signed : (Kind → Bool) → Bool
  sound : ∀ {f : Kind → Bool}, signed f = true → ∀ k, f k = true → sign k

namespace Watch

variable (w : Watch)

def cool (f : Kind → Bool) : Bool :=
  w.hot.all (fun k => !f k)

theorem not_hot_of_cool {w : Watch} {f : Kind → Bool} (h : w.cool f = true) {k : Kind} (hk : f k = true) :
    k ∉ w.hot := by
  intro hmem
  have := List.all_eq_true.mp h k hmem
  simp [hk] at this

def Kept (before : Bool) (s t : State) (pending : Bool) : Prop :=
  ∃ tokens : List Token, t.shown = s.shown ++ tokens ∧ t.rest = s.rest.drop tokens.length ∧
    (before = true → w.sign (s.kindAt 0) ∨ tokens = [] ∧ pending = true) ∧
    ∀ i y, tokens[i]? = some y → y.kind ∈ w.hot →
      w.sign (s.kindAt (i + 1)) ∨ i + 1 = tokens.length ∧ pending = true

variable {w}

theorem kindAt_drop {s t : State} {n : Nat} (h : t.rest = s.rest.drop n) (i : Nat) :
    t.kindAt i = s.kindAt (n + i) := by
  simp [View.kindAt, h]

theorem Kept.refl (before : Bool) (s : State) : w.Kept before s s before :=
  ⟨[], by simp, rfl, fun h => .inr ⟨rfl, h⟩, by simp⟩

theorem Kept.weaken {b b' p p' : Bool} {s t : State} (h : w.Kept b s t p) (hb : b' = true → b = true)
    (hp : p = true → p' = true) : w.Kept b' s t p' := by
  obtain ⟨ts, hs, hr, hfirst, hall⟩ := h
  refine ⟨ts, hs, hr, fun hb' => ?_, fun i y hi hy => ?_⟩
  · exact (hfirst (hb hb')).imp_right (fun h => ⟨h.1, hp h.2⟩)
  · exact (hall i y hi hy).imp_right (fun h => ⟨h.1, hp h.2⟩)

theorem Kept.trans {b p q : Bool} {s t u : State} (h : w.Kept b s t p) (h' : w.Kept p t u q) :
    w.Kept b s u q := by
  obtain ⟨ts, hs, hr, hfirst, hall⟩ := h
  obtain ⟨ts', hs', hr', hfirst', hall'⟩ := h'
  refine ⟨ts ++ ts', by simp [hs, hs'], by simp [hr, hr'], ?_, ?_⟩
  · intro hb
    obtain hsign | ⟨rfl, hp⟩ := hfirst hb
    · exact .inl hsign
    · refine (hfirst' hp).imp ?_ (fun h => ⟨by simp [h.1], h.2⟩)
      rw [kindAt_drop hr]
      simp
  · intro i y hi hy
    by_cases hlt : i < ts.length
    · rw [List.getElem?_append_left hlt] at hi
      obtain hsign | ⟨hlast, hp⟩ := hall i y hi hy
      · exact .inl hsign
      · refine (hfirst' hp).imp ?_ (fun h => ⟨by simp [h.1, hlast], h.2⟩)
        rw [kindAt_drop hr, hlast]
        simp
    · rw [List.getElem?_append_right (by omega)] at hi
      refine (hall' _ y hi hy).imp ?_ (fun h => ⟨by simp; omega, h.2⟩)
      rw [kindAt_drop hr]
      intro h
      convert h using 2
      omega

theorem Kept.push {b p : Bool} {s t : State} {y : Token} (hs : t.shown = s.shown ++ [y])
    (hr : t.rest = s.rest.tail) (hfirst : b = true → w.sign (s.kindAt 0))
    (hy : y.kind ∈ w.hot → w.sign (s.kindAt 1) ∨ p = true) : w.Kept b s t p := by
  refine ⟨[y], hs, by simpa using hr, fun hb => .inl (hfirst hb), fun i z hi hz => ?_⟩
  match i with
  | 0 =>
    obtain rfl : y = z := by simpa using hi
    exact (hy hz).imp_right (fun h => ⟨rfl, h⟩)
  | _ + 1 => simp at hi

variable {σ : Type}

def Tight (w : Watch) (call : σ → State → State) (P : View → Prop) (b : Bool) (a : Action σ) (Q : View → Prop)
    (p : Bool) : Prop :=
  ∀ s : State, P s.toView → s.Quiet (a.run call s) → w.Kept b s (a.run call s) p ∧ Q (a.run call s).toView

namespace Tight

variable {call : σ → State → State} {P Q R : View → Prop} {b p q : Bool} {a a' : Action σ}

theorem mono {P' Q' : View → Prop} {b' p' : Bool} (h : Tight w call P b a Q p) (hP : ∀ v, P' v → P v)
    (hQ : ∀ v, Q v → Q' v) (hb : b' = true → b = true) (hp : p = true → p' = true) :
    Tight w call P' b' a Q' p' := by
  intro s hs hquiet
  obtain ⟨hkept, hv⟩ := h s (hP _ hs) hquiet
  exact ⟨hkept.weaken hb hp, hQ _ hv⟩

theorem skip : Tight w call P b .skip P b :=
  fun s hs _ => ⟨.refl b s, hs⟩

theorem take (hfirst : b = true → ∀ v, P v → w.sign (v.kindAt 0))
    (hhot : ∀ v, P v → v.kindAt 0 ∈ w.hot → w.sign (v.kindAt 1) ∨ p = true)
    (hQ : ∀ v, P v → Q { v with rest := v.rest.tail }) : Tight w call P b .take Q p := by
  intro s hs _
  have hview : s.take.toView = { s.toView with rest := s.rest.tail } := by
    rw [View.mk.injEq, State.rest_take]
    refine ⟨rfl, ?_⟩
    unfold State.take
    split <;> rfl
  refine ⟨?_, by rw [Action.run, hview]; exact hQ _ hs⟩
  cases hr : s.rest with
  | nil =>
    have hsame : s.take = s := by simp [State.take, hr]
    rw [Action.run, hsame]
    exact ⟨[], by simp, rfl, fun hb => .inl (hfirst hb _ hs), by simp⟩
  | cons i l =>
    refine Kept.push (y := i.toToken) ?_ (by rw [Action.run, State.rest_take])
      (fun hb => hfirst hb _ hs) (fun hi => hhot _ hs ?_)
    · simp only [Action.run, State.take, hr]
      exact State.shown_push _ _
    · simpa [View.kindAt, hr] using hi

theorem takeAs {k : Kind} (hfirst : b = true → ∀ v, P v → w.sign (v.kindAt 0))
    (hhot : ∀ v, P v → k ∈ w.hot → w.sign (v.kindAt 1) ∨ p = true)
    (hQ : ∀ v, P v → Q { v with rest := v.rest.tail }) : Tight w call P b (.takeAs k) Q p := by
  intro s hs _
  cases hr : s.rest with
  | nil =>
    have hsame : s.takeAs k = s := by simp [State.takeAs, hr]
    have hQ := hQ _ hs
    rw [hr, List.tail_nil, ← hr] at hQ
    rw [Action.run, hsame]
    exact ⟨⟨[], by simp, rfl, fun hb => .inl (hfirst hb _ hs), by simp⟩, hQ⟩
  | cons i l =>
    have hQ := hQ _ hs
    rw [hr, List.tail_cons] at hQ
    simp only [Action.run, State.takeAs, hr]
    refine ⟨Kept.push (y := ⟨k, i.text⟩) (State.shown_push _ _) (by simp [hr])
      (fun hb => hfirst hb _ hs) (hhot _ hs), hQ⟩

theorem complain {f : GrammarFault} : Tight w call P b (.complain f) Q p := by
  intro s _ hquiet
  simp [State.Quiet, Action.run, State.complain] at hquiet

theorem scope (h : Tight w call P b a Q p) : Tight w call P b (.scope a) Q p := by
  intro s hs hquiet
  obtain ⟨⟨ts, hshown, hr, hfirst, hall⟩, hv⟩ := h { s with built := [] } hs hquiet
  refine ⟨⟨ts, ?_, hr, hfirst, hall⟩, hv⟩
  rw [Action.run, State.shown_enclose, hshown]
  simp [State.shown, Outline.tokensAll]

theorem wrap {k : Kind} (h : Tight w call P b a Q p) : Tight w call P b (.wrap k a) Q p := by
  intro s hs hquiet
  obtain ⟨⟨ts, hshown, hr, hfirst, hall⟩, hv⟩ := h s hs hquiet
  refine ⟨⟨ts, ?_, hr, hfirst, hall⟩, hv⟩
  rw [Action.run, State.shown_wrap, hshown]

theorem branch {c : Cond} (ha : Tight w call (fun v => P v ∧ c.holds v = true) b a Q p)
    (ha' : Tight w call (fun v => P v ∧ c.holds v = false) b a' Q p) : Tight w call P b (.branch c a a') Q p := by
  intro s hs hquiet
  rw [Action.run] at hquiet ⊢
  by_cases hc : c.holds s.toView = true
  · rw [if_pos hc] at hquiet ⊢
    exact ha s ⟨hs, hc⟩ hquiet
  · rw [if_neg hc] at hquiet ⊢
    exact ha' s ⟨hs, by simpa using hc⟩ hquiet

theorem choose {w : Watch} {call : Symbol → State → State} {P Q : View → Prop} {b p : Bool}
    {cases : List (Cond × Rule)} {otherwise : Rule}
    (hcases : ∀ c ∈ cases, Tight w call (fun v => P v ∧ c.1.holds v = true) b c.2 Q p)
    (hother : Tight w call P b otherwise Q p) : Tight w call P b (Rule.choose cases otherwise) Q p := by
  induction cases with
  | nil => exact hother
  | cons c cases ih =>
    have hrest := ih (fun d hd => hcases d (List.mem_cons_of_mem _ hd))
    exact .branch (hcases c (List.mem_cons_self ..)) (hrest.mono (fun _ hv => hv.1) (fun _ hv => hv) id id)

theorem inQuery (h : Tight w call (fun v => ∃ n, P { v with queries := n }) b a
      (fun v => ∀ n, Q { v with queries := n }) p) :
    Tight w call P b (.inQuery a) Q p := by
  intro s hs hquiet
  obtain ⟨hkept, hv⟩ := h { s with queries := s.queries + 1 } ⟨_, hs⟩ hquiet
  exact ⟨hkept, hv _⟩

section Steps

variable (hadv : ∀ g (s : State), s.Advances (call g s))

include hadv

theorem seq (ha : Tight w call P b a Q p) (ha' : Tight w call Q p a' R q) :
    Tight w call P b (.seq a a') R q := by
  intro s hs hquiet
  obtain ⟨hq, hq'⟩ := (a.advances hadv s).quiet (a'.advances hadv _) hquiet
  obtain ⟨hkept, hv⟩ := ha s hs hq
  obtain ⟨hkept', hv'⟩ := ha' _ hv hq'
  exact ⟨hkept.trans hkept', hv'⟩

theorem progress (h : Tight w call P b a Q p) : Tight w call P b (.progress a) Q p := by
  intro s hs hquiet
  obtain ⟨hq, hq'⟩ := (a.advances hadv s).quiet (State.steady_advances.setAside _ _) hquiet
  rw [Action.run, State.setAside_of_quiet hq']
  exact h s hs hq

theorem loop {c : Cond} (h : Tight w call (fun v => P v ∧ c.holds v = true) false a P false) :
    Tight w call P false (.loop c a) P false := by
  have hrun : ∀ n (s : State), P s.toView → s.Quiet (State.repeatWhile c (a.run call) n s) →
      w.Kept false s (State.repeatWhile c (a.run call) n s) false ∧
        P (State.repeatWhile c (a.run call) n s).toView := by
    intro n
    induction n with
    | zero => exact fun s hs _ => ⟨.refl false s, hs⟩
    | succ n ih =>
      intro s hs hquiet
      rw [State.repeatWhile] at hquiet ⊢
      by_cases hc : c.holds s.toView = true
      · rw [if_pos hc] at hquiet ⊢
        obtain ⟨hq, hq'⟩ := (a.advances hadv s).quiet
          (State.steady_advances.repeatWhile (fun t _ => a.advances hadv t) n _) hquiet
        obtain ⟨hkept, hv⟩ := h s ⟨hs, hc⟩ hq
        obtain ⟨hkept', hv'⟩ := ih _ hv hq'
        exact ⟨hkept.trans hkept', hv'⟩
      · rw [if_neg hc]
        exact ⟨.refl false s, hs⟩
  exact fun s hs hquiet => hrun _ s hs hquiet

theorem commas {strict : Bool} {c : Cond} (hcomma : Kind.comma ∉ w.hot)
    (h : Tight w call (fun v => c.holds v = true) false a (fun _ => True) false) :
    Tight w call (fun _ => True) false (.commas strict c a) (fun _ => True) false := by
  have hrun : ∀ n (s : State), s.Quiet (State.repeatCommas strict c (a.run call) n s) →
      w.Kept false s (State.repeatCommas strict c (a.run call) n s) false := by
    intro n
    induction n with
    | zero => exact fun s _ => .refl false s
    | succ n ih =>
      intro s hquiet
      rw [State.repeatCommas] at hquiet ⊢
      by_cases hc : c.holds s.toView = true
      · simp only [if_pos hc] at hquiet ⊢
        have ha := a.advances hadv s
        by_cases hk : ((a.run call s).kindAt 0 == .comma) = true
        · simp only [if_pos hk] at hquiet ⊢
          have htake := State.steady_advances.take (a.run call s)
          have hloop := State.steady_advances.repeatCommas (c := c) (fun t _ => a.advances hadv t) strict n
            (a.run call s).take
          obtain ⟨hq, hq'⟩ := ha.quiet (State.steady_advances.trans htake hloop) hquiet
          obtain ⟨hq₁, hq₂⟩ := htake.quiet hloop hq'
          have htight : Tight w call (fun v => v.kindAt 0 = .comma) false .take (fun _ => True) false :=
            take (by simp) (fun v hv hmem => absurd (hv ▸ hmem) hcomma) (fun _ _ => trivial)
          have hkept := (htight (a.run call s) (by simpa using hk) hq₁).1
          exact ((h s hc hq).1.trans hkept).trans (ih _ hq₂)
        · simp only [if_neg hk] at hquiet ⊢
          cases strict with
          | false => exact (h s hc hquiet).1
          | true =>
            obtain ⟨hq, hq'⟩ := ha.quiet (State.steady_advances.setAside _ _) hquiet
            simp only [if_true, State.setAside_of_quiet hq']
            exact (h s hc hq).1
      · simp only [if_neg hc]
        exact .refl false s
  exact fun s _ hquiet => ⟨hrun _ s hquiet, trivial⟩

end Steps

end Tight

structure Entry where
  cool : Bool := false
  pending : Bool := false

def Entry.known (w : Watch) (e : Entry) : Know :=
  { first := fun k => !e.cool || !w.hot.contains k }

inductive Forecast where
  | unknown
  | never
  | here (known : Know) (pending : Bool)

namespace Forecast

def andThen (f : Know → Bool → Forecast) : Forecast → Forecast
  | here K p => f K p
  | F => F

def join : Forecast → Forecast → Forecast
  | unknown, _ => unknown
  | _, unknown => unknown
  | never, F => F
  | F, never => F
  | here K p, here L q => here (K.join L) (p || q)

def settled : Forecast → Bool
  | unknown => false
  | never => true
  | here _ p => !p

end Forecast

def forecast (w : Watch) (entry : σ → Option Entry) : Action σ → Know → Bool → Forecast
  | .skip, K, b => .here K b
  | .take, K, b =>
    if b && !w.signed K.first then .unknown
    else .here (Action.after (.take : Action σ) K) (!w.cool K.first && !w.signed K.second)
  | .takeAs k, K, b =>
    if b && !w.signed K.first then .unknown
    else .here (Action.after (.take : Action σ) K) (w.hot.contains k && !w.signed K.second)
  | .complain _, _, _ => .never
  | .seq a a', K, b => (forecast w entry a K b).andThen (forecast w entry a')
  | .scope a, K, b => forecast w entry a K b
  | .wrap _ a, K, b => forecast w entry a K b
  | .branch c a a', K, b =>
    (forecast w entry a (c.learn true K) b).join (forecast w entry a' (c.learn false K) b)
  | .loop c a, _, b =>
    if b || !(forecast w entry a (c.learn true {}) false).settled then .unknown else .here {} false
  | .commas _ c a, _, b =>
    if b || !(forecast w entry a (c.learn true {}) false).settled then .unknown else .here {} false
  | .progress a, K, b => forecast w entry a K b
  | .inQuery a, K, b => forecast w entry a K b
  | .call g, K, b =>
    match entry g with
    | none => .unknown
    | some e => if b && !e.pending || e.cool && !w.cool K.first then .unknown else .here {} false

def Forecast.Holds (w : Watch) (call : σ → State → State) (P : View → Prop) (b : Bool) (a : Action σ) :
    Forecast → Prop
  | unknown => True
  | never => ∀ Q p, Tight w call P b a Q p
  | here K p => Tight w call P b a K.Holds p

section Sound

variable {call : σ → State → State} {P : View → Prop} {b : Bool} {a : Action σ}

theorem Forecast.Holds.of_imp {a' : Action σ} {P' : View → Prop} {b' : Bool} {F : Forecast}
    (h : F.Holds w call P b a) (himp : ∀ Q p, Tight w call P b a Q p → Tight w call P' b' a' Q p) :
    F.Holds w call P' b' a' := by
  cases F with
  | unknown => trivial
  | never => exact fun Q p => himp Q p (h Q p)
  | here K p => exact himp _ _ h

theorem Forecast.Holds.tight {F : Forecast} (h : F.Holds w call P b a) (hs : F.settled = true) :
    Tight w call P b a (fun _ => True) false := by
  cases F with
  | unknown => simp [settled] at hs
  | never => exact h _ _
  | here K p => exact h.mono (fun _ hv => hv) (fun _ _ => trivial) id (by simpa [settled] using hs)

theorem Forecast.Holds.join {a' : Action σ} {c : Cond} {F G : Forecast}
    (hF : F.Holds w call (fun v => P v ∧ c.holds v = true) b a)
    (hG : G.Holds w call (fun v => P v ∧ c.holds v = false) b a') :
    (F.join G).Holds w call P b (.branch c a a') := by
  match F, G with
  | .unknown, _ => trivial
  | .never, .unknown => trivial
  | .here _ _, .unknown => trivial
  | .never, .never => exact fun Q p => .branch (hF Q p) (hG Q p)
  | .never, .here K p => exact .branch (hF _ _) hG
  | .here K p, .never => exact .branch hF (hG _ _)
  | .here K p, .here L q =>
    simp only [Holds] at hF hG
    exact .branch (hF.mono (fun _ hv => hv) (fun _ hv => hv.join_left) id (by simp_all))
      (hG.mono (fun _ hv => hv) (fun _ hv => hv.join_right) id (by simp_all))

theorem Know.holds_tail {K : Know} {v : View} (hK : K.Holds v) :
    (Action.after (.take : Action σ) K).Holds { v with rest := v.rest.tail } :=
  Action.holds_take (s := { toView := v }) (t := { toView := { v with rest := v.rest.tail } }) hK
    (fun _ _ hr => congrArg List.tail hr)

variable {entry : σ → Option Entry}

theorem forecast_holds (hcomma : Kind.comma ∉ w.hot) (hadv : ∀ g (s : State), s.Advances (call g s))
    (hcall : ∀ g e, entry g = some e →
      Tight w call (e.known w).Holds e.pending (.call g) (fun _ => True) false)
    (a : Action σ) (K : Know) (b : Bool) : (w.forecast entry a K b).Holds w call K.Holds b a := by
  induction a generalizing K b with
  | skip => exact .skip
  | take =>
    rw [forecast]
    split
    · trivial
    · rename_i hb
      refine .take (fun hpend v hv => ?_) (fun v hv hhot => ?_) (fun v hv => Know.holds_tail hv)
      · exact w.sound (by simpa [hpend] using hb) _ hv.first
      · by_cases hc : w.cool K.first = true
        · exact absurd hhot (not_hot_of_cool hc hv.first)
        · by_cases hsig : w.signed K.second = true
          · exact .inl (w.sound hsig _ hv.second)
          · simp [hc, hsig]
  | takeAs k =>
    rw [forecast]
    split
    · trivial
    · rename_i hb
      refine .takeAs (fun hpend v hv => ?_) (fun v hv hhot => ?_) (fun v hv => Know.holds_tail hv)
      · exact w.sound (by simpa [hpend] using hb) _ hv.first
      · by_cases hsig : w.signed K.second = true
        · exact .inl (w.sound hsig _ hv.second)
        · simp [hhot, hsig]
  | complain f => exact fun Q p => .complain
  | seq a a' iha iha' =>
    rw [forecast]
    have ha := iha K b
    cases hF : w.forecast entry a K b with
    | unknown => trivial
    | never =>
      rw [hF] at ha
      exact fun Q p => .seq hadv (ha (fun _ => False) false) (fun s hs => hs.elim)
    | here L p =>
      rw [hF] at ha
      exact (iha' L p).of_imp (fun Q q h => .seq hadv ha h)
  | scope a ih => exact (ih K b).of_imp (fun _ _ => .scope)
  | wrap k a ih => exact (ih K b).of_imp (fun _ _ => .wrap)
  | branch c a a' iha iha' =>
    refine .join ((iha _ b).of_imp fun Q p h => ?_) ((iha' _ b).of_imp fun Q p h => ?_)
    · exact h.mono (fun v hv => Cond.learn_holds hv.2 hv.1) (fun _ hv => hv) id id
    · exact h.mono (fun v hv => Cond.learn_holds hv.2 hv.1) (fun _ hv => hv) id id
  | loop c a ih =>
    rw [forecast]
    split
    · trivial
    · rename_i hb
      simp only [Bool.or_eq_true, Bool.not_eq_true', not_or, Bool.not_eq_true, Bool.not_eq_false] at hb
      rw [hb.1]
      refine (Tight.loop hadv ?_).mono (fun _ _ => trivial) (fun v _ => Know.holds_nothing v) id id
      exact ((ih _ false).tight hb.2).mono (fun v hv => Cond.learn_holds hv.2 (Know.holds_nothing v))
        (fun _ hv => hv) id id
  | commas strict c a ih =>
    rw [forecast]
    split
    · trivial
    · rename_i hb
      simp only [Bool.or_eq_true, Bool.not_eq_true', not_or, Bool.not_eq_true, Bool.not_eq_false] at hb
      rw [hb.1]
      refine (Tight.commas hadv hcomma ?_).mono (fun _ _ => trivial) (fun v _ => Know.holds_nothing v) id id
      exact ((ih _ false).tight hb.2).mono (fun v hv => Cond.learn_holds hv (Know.holds_nothing v))
        (fun _ hv => hv) id id
  | progress a ih => exact (ih K b).of_imp (fun _ _ => .progress hadv)
  | inQuery a ih =>
    have ha := ih K b
    rw [forecast]
    cases hF : w.forecast entry a K b with
    | unknown => trivial
    | never =>
      rw [hF] at ha
      refine fun Q p => .inQuery ((ha _ p).mono ?_ (fun _ hv => hv) id id)
      exact fun v ⟨n, hv⟩ => ⟨hv.first, hv.second, hv.some⟩
    | here L p =>
      rw [hF] at ha
      simp only [Forecast.Holds] at ha
      refine .inQuery (ha.mono ?_ (fun v hv n => ⟨hv.first, hv.second, hv.some⟩) id id)
      exact fun v ⟨n, hv⟩ => ⟨hv.first, hv.second, hv.some⟩
  | call g =>
    rw [forecast]
    split
    · trivial
    · rename_i e he
      split
      · trivial
      · rename_i hb
        simp only [Bool.or_eq_true, Bool.and_eq_true, Bool.not_eq_true', not_or, not_and,
          Bool.not_eq_false] at hb
        refine (hcall g e he).mono (fun v hv => ?_) (fun v _ => Know.holds_nothing v) hb.1 id
        refine ⟨?_, rfl, by simp [Entry.known]⟩
        by_cases hc : e.cool = true
        · have hnot := not_hot_of_cool (hb.2 hc) hv.first
          simpa [Entry.known, hc] using hnot
        · simp [Entry.known, hc]

end Sound

end Watch

end Lintel.Grammar
