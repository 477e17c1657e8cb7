import Lintel.Proofs.ExpressionShape
import Lintel.Proofs.KeywordFollowers
import Lintel.Proofs.Trails
import Lintel.Proofs.Cells
import Lintel.Style.KeywordSpacing

namespace Lintel

def Cell.trait (c : Cell) : Kind × Bool :=
  (c.kind, c.owner == .parenExpr)

namespace Grammar

def callers : List Kind :=
  .newKw :: .defaultKw :: callKinds

def leadingWords : List Kind :=
  KeywordSpacing.kinds.filter (· != .defaultKw)

def closing : List Kind :=
  [.semicolon, .rParen]

inductive Bar where
  | call
  | keyword
  | opener
  deriving DecidableEq

namespace Bar

def all : List Bar :=
  [.call, .keyword, .opener]

theorem mem_all (b : Bar) : b ∈ all := by
  cases b <;> decide

def raisedBy : Bar → Kind × Bool → Bool
  | call, c => callers.contains c.1
  | keyword, c => leadingWords.contains c.1
  | opener, c => c == (.lParen, true)

def stops : Bar → Kind × Bool → Bool
  | call, c => c == (.lParen, true)
  | keyword, c => c == (.rParen, true)
  | opener, c => closing.contains c.1

def mayRaise : Bar → (Kind → Bool) → Bool
  | call, f => callers.any f
  | keyword, f => leadingWords.any f
  | opener, _ => false

def mayStop : Bar → (Kind → Bool) → Bool
  | opener, f => closing.any f
  | _, _ => false

theorem mayRaise_of_raisedBy {b : Bar} {k : Kind} {f : Kind → Bool} (h : b.raisedBy (k, false) = true)
    (hk : f k = true) : b.mayRaise f = true := by
  cases b with
  | call => exact List.any_eq_true.mpr ⟨k, by simpa [raisedBy] using h, hk⟩
  | keyword => exact List.any_eq_true.mpr ⟨k, by simpa [raisedBy] using h, hk⟩
  | opener => simp [raisedBy] at h

theorem mayStop_of_stops {b : Bar} {k : Kind} {f : Kind → Bool} (h : b.stops (k, false) = true)
    (hk : f k = true) : b.mayStop f = true := by
  cases b with
  | call => simp [stops] at h
  | keyword => simp [stops] at h
  | opener => exact List.any_eq_true.mpr ⟨k, by simpa [stops] using h, hk⟩

def of (c : Kind × Bool) : List Bar :=
  all.filter (·.raisedBy c)

theorem mem_of {b : Bar} {c : Kind × Bool} : b ∈ of c ↔ b.raisedBy c = true := by
  simp [of, mem_all]

end Bar

def MayMeet (c d : Kind × Bool) : Prop :=
  ∀ b : Bar, b.raisedBy c = true → b.stops d = false

def Passes : List Bar → List (Kind × Bool) → List Bar → Prop
  | p, [], q => p ⊆ q
  | p, c :: cs, q => (∀ b ∈ p, b.stops c = false) ∧ Passes (Bar.of c) cs q

namespace Passes

variable {p q r : List Bar} {cs ds : List (Kind × Bool)}

theorem weaken {p' q' : List Bar} (h : Passes p cs q) (hp : p' ⊆ p) (hq : q ⊆ q') : Passes p' cs q' := by
  induction cs generalizing p p' with
  | nil => exact fun b hb => hq (h (hp hb))
  | cons c cs ih => exact ⟨fun b hb => h.1 b (hp hb), ih h.2 (List.Subset.refl _)⟩

theorem append (h : Passes p cs q) (h' : Passes q ds r) : Passes p (cs ++ ds) r := by
  induction cs generalizing p with
  | nil => exact h'.weaken h (List.Subset.refl _)
  | cons c cs ih => exact ⟨h.1, ih h.2⟩

theorem isChain (h : Passes p cs q) : cs.IsChain MayMeet := by
  induction cs generalizing p with
  | nil => exact .nil
  | cons c cs ih =>
    cases cs with
    | nil => exact .singleton c
    | cons d cs => exact .cons_cons (fun b hb => h.2.1 b (Bar.mem_of.mpr hb)) (ih h.2)

end Passes

namespace State

def traits (s : State) : List (Kind × Bool) :=
  (Tree.cellsAll .compilationUnit s.bare).map Cell.trait

theorem traits_of_bare {s t : State} {us : List Tree} (h : t.bare = s.bare ++ us) :
    t.traits = s.traits ++ (Tree.cellsAll .compilationUnit us).map Cell.trait := by
  simp [traits, h]

theorem traits_push (s : State) (u : Token) :
    { s with built := .token u :: s.built }.traits = s.traits ++ [(u.kind, false)] := by
  rw [traits_of_bare (bare_push s (.token u))]
  rfl

theorem traits_enclose (s t : State) :
    traits { t with built := t.built ++ .gap :: s.built } = s.traits ++ t.traits :=
  traits_of_bare (bare_enclose s (fun _ => t))

end State

theorem trait_cellsAll {k l : Kind} (hk : k ≠ .parenExpr) (hl : l ≠ .parenExpr) (ts : List Tree) :
    (Tree.cellsAll k ts).map Cell.trait = (Tree.cellsAll l ts).map Cell.trait := by
  induction ts with
  | nil => rfl
  | cons t ts ih =>
    rw [Tree.cellsAll, Tree.cellsAll, List.map_append, List.map_append, ih]
    cases t with
    | token kind text => simp [Tree.cells, Cell.trait, hk, hl]
    | node kind cs => rfl

theorem State.traits_wrap {k : Kind} (hk : k ≠ .parenExpr) (s : State) : (s.wrap k).traits = s.traits := by
  rw [traits, bare_wrap, Tree.cellsAll, Tree.cells, Tree.cellsAll, List.append_nil]
  exact trait_cellsAll hk (by decide) _

def neighbours : Trail (List Bar) where
  Kept p s t q := ∃ cs, t.traits = s.traits ++ cs ∧ Passes p cs q
  refl p s := ⟨[], by simp, List.Subset.refl p⟩
  trans := by
    rintro b p q s t u ⟨cs, hcs, hpass⟩ ⟨ds, hds, hpass'⟩
    exact ⟨cs ++ ds, by rw [hds, hcs, List.append_assoc], hpass.append hpass'⟩
  enclose := by
    rintro b p s t ⟨cs, hcs, hpass⟩
    exact ⟨cs, by rw [State.traits_enclose, hcs]; rfl, hpass⟩
  inQuery h := h

namespace neighbours

open Trail

variable {σ : Type} {call : σ → State → State} {P Q : View → Prop} {p q : List Bar} {a : Action σ}

theorem mono {P' Q' : View → Prop} {p' q' : List Bar} (h : neighbours.Leaves call P p a Q q)
    (hP : ∀ v, P' v → P v) (hQ : ∀ v, Q v → Q' v) (hp : p' ⊆ p) (hq : q ⊆ q') :
    neighbours.Leaves call P' p' a Q' q' := by
  intro s hs hquiet
  obtain ⟨⟨cs, hcs, hpass⟩, hv⟩ := h s (hP _ hs) hquiet
  exact ⟨⟨cs, hcs, hpass.weaken hp hq⟩, hQ _ hv⟩

theorem wrap {k : Kind} (hk : k ≠ .parenExpr) (h : neighbours.Leaves call P p a Q q) :
    neighbours.Leaves call P p (.wrap k a) Q q := by
  intro s hs hquiet
  obtain ⟨⟨cs, hcs, hpass⟩, hv⟩ := h s hs hquiet
  exact ⟨⟨cs, by rw [Action.run, State.traits_wrap hk, hcs], hpass⟩, hv⟩

theorem push {s t : State} {u : Token} (ht : t.traits = s.traits ++ [(u.kind, false)])
    (hstop : ∀ b ∈ p, b.stops (u.kind, false) = false) (hraise : ∀ b : Bar, b.raisedBy (u.kind, false) = true → b ∈ q) :
    neighbours.Kept p s t q :=
  ⟨[(u.kind, false)], ht, hstop, fun b hb => hraise b (Bar.mem_of.mp hb)⟩

theorem take (hstop : ∀ v, P v → ∀ b ∈ p, b.stops (v.kindAt 0, false) = false)
    (hraise : ∀ v, P v → ∀ b : Bar, b.raisedBy (v.kindAt 0, false) = true → b ∈ q)
    (hend : ∀ v, P v → v.rest = [] → p ⊆ q) (hQ : ∀ v, P v → Q { v with rest := v.rest.tail }) :
    neighbours.Leaves call P p .take Q q := by
  intro s hs _
  have hQ := hQ _ hs
  cases hr : s.rest with
  | nil =>
    have hsame : s.take = s := by simp [State.take, hr]
    rw [hr, List.tail_nil, ← hr] at hQ
    rw [Action.run, hsame]
    exact ⟨⟨[], by simp, hend _ hs hr⟩, hQ⟩
  | cons i rest =>
    have hkind : s.kindAt 0 = i.kind := by simp [View.kindAt, hr]
    rw [hr, List.tail_cons] at hQ
    simp only [Action.run, State.take, hr]
    refine ⟨push (State.traits_push _ _) ?_ ?_, hQ⟩
    · rw [← hkind]
      exact hstop _ hs
    · rw [← hkind]
      exact hraise _ hs

theorem takeAs {k : Kind} (hstop : ∀ b ∈ p, b.stops (k, false) = false)
    (hraise : ∀ b : Bar, b.raisedBy (k, false) = true → b ∈ q) (hend : ∀ v, P v → v.rest = [] → p ⊆ q)
    (hQ : ∀ v, P v → Q { v with rest := v.rest.tail }) : neighbours.Leaves call P p (.takeAs k) Q q := by
  intro s hs _
  have hQ := hQ _ hs
  cases hr : s.rest with
  | nil =>
    have hsame : s.takeAs k = s := by simp [State.takeAs, hr]
    rw [hr, List.tail_nil, ← hr] at hQ
    rw [Action.run, hsame]
    exact ⟨⟨[], by simp, hend _ hs hr⟩, hQ⟩
  | cons i rest =>
    rw [hr, List.tail_cons] at hQ
    simp only [Action.run, State.takeAs, hr]
    exact ⟨push (u := ⟨k, i.text⟩) (State.traits_push _ _) hstop hraise, hQ⟩

theorem comma (p : List Bar) :
    neighbours.Leaves call (fun v => v.kindAt 0 = .comma) p .take (fun _ => True) [] := by
  refine take (fun v hv b _ => ?_) (fun v hv b hb => ?_) (fun v hv hr => ?_) (fun _ _ => trivial)
  · rw [hv]
    cases b <;> decide
  · rw [hv] at hb
    revert hb
    cases b <;> decide
  · simp [View.kindAt, hr] at hv

end neighbours

/-- How a named action may be called, and with which bars it ends. It is `guarded` if no closing sign may come next. -/
structure Gate where
  before : List Bar
  after : List Bar := []
  guarded : Bool := false

def Gate.known (e : Gate) : Know :=
  { first := fun k => !e.guarded || !closing.contains k }

inductive Outlook where
  | unknown
  | never
  | here (known : Know) (bars : List Bar)

namespace Outlook

def andThen (f : Know → List Bar → Outlook) : Outlook → Outlook
  | here K p => f K p
  | o => o

def join : Outlook → Outlook → Outlook
  | unknown, _ => unknown
  | _, unknown => unknown
  | never, o => o
  | o, never => o
  | here K p, here L q => here (K.join L) (p ++ q)

def within (q : List Bar) : Outlook → Bool
  | unknown => false
  | never => true
  | here _ p => p.all q.contains

end Outlook

section Outlook

variable {σ : Type} (gate : σ → Gate)

def outlook : Action σ → Know → List Bar → Outlook
  | .skip, K, p => .here K p
  | .take, K, p =>
    if p.any (·.mayStop K.first) then .unknown
    else .here (Action.after (.take : Action σ) K)
      ((if K.nonempty then [] else p) ++ Bar.all.filter (·.mayRaise K.first))
  | .takeAs k, K, p =>
    if p.any (·.stops (k, false)) then .unknown
    else .here (Action.after (.take : Action σ) K) ((if K.nonempty then [] else p) ++ Bar.of (k, false))
  | .complain _, _, _ => .never
  | .seq a a', K, p => (outlook a K p).andThen (outlook a')
  | .scope a, K, p => outlook a K p
  | .wrap k a, K, p => if k == .parenExpr then .unknown else outlook a K p
  | .branch c a a', K, p => (outlook a (c.learn true K) p).join (outlook a' (c.learn false K) p)
  | .loop c a, _, p =>
    if (outlook a (c.learn true {}) p).within p then .here {} p
    else if (outlook a (c.learn true {}) Bar.all).within Bar.all then .here {} Bar.all
    else .unknown
  | .commas _ c a, _, p =>
    match outlook a (c.learn true {}) p with
    | .unknown => .unknown
    | .never => .here {} p
    | .here _ q => .here {} (p ++ q)
  | .progress a, K, p => outlook a K p
  | .inQuery a, K, p => outlook a K p
  | .call g, K, p =>
    if p.all (gate g).before.contains && (!(gate g).guarded || !closing.any K.first) then .here {} (gate g).after
    else .unknown

def Outlook.Holds (call : σ → State → State) (P : View → Prop) (p : List Bar) (a : Action σ) : Outlook → Prop
  | unknown => True
  | never => ∀ Q q, neighbours.Leaves call P p a Q q
  | here K q => neighbours.Leaves call P p a K.Holds q

end Outlook

section Sound

variable {σ : Type} {gate : σ → Gate} {call : σ → State → State} {P : View → Prop} {p : List Bar} {a : Action σ}

theorem Outlook.Holds.of_imp {a' : Action σ} {P' : View → Prop} {p' : List Bar} {o : Outlook}
    (h : o.Holds call P p a)
    (himp : ∀ Q q, neighbours.Leaves call P p a Q q → neighbours.Leaves call P' p' a' Q q) :
    o.Holds call P' p' a' := by
  cases o with
  | unknown => trivial
  | never => exact fun Q q => himp Q q (h Q q)
  | here K q => exact himp _ _ h

theorem Outlook.Holds.leaves {o : Outlook} {q : List Bar} (h : o.Holds call P p a) (hq : o.within q = true) :
    neighbours.Leaves call P p a (fun _ => True) q := by
  cases o with
  | unknown => simp [within] at hq
  | never => exact h _ _
  | here K r =>
    exact neighbours.mono h (fun _ hv => hv) (fun _ _ => trivial) (List.Subset.refl p)
      (fun b hb => by simpa using List.all_eq_true.mp hq b hb)

theorem Outlook.Holds.join {a' : Action σ} {c : Cond} {o o' : Outlook}
    (h : o.Holds call (fun v => P v ∧ c.holds v = true) p a)
    (h' : o'.Holds call (fun v => P v ∧ c.holds v = false) p a') :
    (o.join o').Holds call P p (.branch c a a') := by
  match o, o' with
  | .unknown, _ => trivial
  | .never, .unknown => trivial
  | .here _ _, .unknown => trivial
  | .never, .never => exact fun Q q => .branch (h Q q) (h' Q q)
  | .never, .here K q => exact .branch (h _ _) h'
  | .here K q, .never => exact .branch h (h' _ _)
  | .here K q, .here L r =>
    simp only [Holds] at h h'
    exact .branch
      (neighbours.mono h (fun _ hv => hv) (fun _ hv => hv.join_left) (List.Subset.refl p)
        (List.subset_append_left q r))
      (neighbours.mono h' (fun _ hv => hv) (fun _ hv => hv.join_right) (List.Subset.refl p)
        (List.subset_append_right q r))

theorem not_rest_nil {K : Know} {v : View} (hK : K.Holds v) (hr : v.rest = []) : K.nonempty = false := by
  by_contra hn
  exact hK.rest_ne_nil (by simpa using hn) hr

theorem outlook_holds (hadv : ∀ g (s : State), s.Advances (call g s))
    (hcall : ∀ g, neighbours.Leaves call (gate g).known.Holds (gate g).before (.call g) (fun _ => True) (gate g).after)
    (a : Action σ) (K : Know) (p : List Bar) : (outlook gate a K p).Holds call K.Holds p a := by
  induction a generalizing K p with
  | skip => exact .skip
  | take =>
    rw [outlook]
    split
    · trivial
    · rename_i hp
      refine neighbours.take (fun v hv b hb => ?_) (fun v hv b hb => ?_) (fun v hv hr => ?_)
        (fun v hv => Watch.Know.holds_tail hv)
      · by_contra hs
        exact hp (List.any_eq_true.mpr ⟨b, hb, Bar.mayStop_of_stops (by simpa using hs) hv.first⟩)
      · exact List.mem_append_right _
          (List.mem_filter.mpr ⟨b.mem_all, Bar.mayRaise_of_raisedBy hb hv.first⟩)
      · rw [not_rest_nil hv hr]
        exact List.subset_append_left p _
  | takeAs k =>
    rw [outlook]
    split
    · trivial
    · rename_i hp
      refine neighbours.takeAs (fun b hb => ?_) (fun b hb => ?_) (fun v hv hr => ?_)
        (fun v hv => Watch.Know.holds_tail hv)
      · by_contra hs
        exact hp (List.any_eq_true.mpr ⟨b, hb, by simpa using hs⟩)
      · exact List.mem_append_right _ (Bar.mem_of.mpr hb)
      · rw [not_rest_nil hv hr]
        exact List.subset_append_left p _
  | complain f => exact fun Q q => .complain
  | seq a a' iha iha' =>
    rw [outlook]
    have ha := iha K p
    cases ho : outlook gate a K p with
    | unknown => trivial
    | never =>
      rw [ho] at ha
      exact fun Q q => .seq hadv (ha (fun _ => False) []) (fun s hs => hs.elim)
    | here L q =>
      rw [ho] at ha
      exact (iha' L q).of_imp (fun Q r h => .seq hadv ha h)
  | scope a ih => exact (ih K p).of_imp (fun _ _ => .scope)
  | wrap k a ih =>
    rw [outlook]
    split
    · trivial
    · rename_i hk
      exact (ih K p).of_imp (fun _ _ => neighbours.wrap (by simpa using hk))
  | branch c a a' iha iha' =>
    refine .join ((iha _ p).of_imp fun Q q h => ?_) ((iha' _ p).of_imp fun Q q h => ?_)
    · exact neighbours.mono h (fun v hv => Cond.learn_holds hv.2 hv.1) (fun _ hv => hv) (List.Subset.refl p)
        (List.Subset.refl q)
    · exact neighbours.mono h (fun v hv => Cond.learn_holds hv.2 hv.1) (fun _ hv => hv) (List.Subset.refl p)
        (List.Subset.refl q)
  | loop c a ih =>
    have hround : ∀ r : List Bar, (outlook gate a (c.learn true {}) r).within r = true →
        neighbours.Leaves call (fun _ => True) r (.loop c a) (fun _ => True) r := by
      intro r hr
      refine .loop hadv (neighbours.mono ((ih _ r).leaves hr) ?_ (fun _ hv => hv) (List.Subset.refl r)
        (List.Subset.refl r))
      exact fun v hv => Cond.learn_holds hv.2 (Know.holds_nothing v)
    rw [outlook]
    split
    · rename_i hp
      exact neighbours.mono (hround p hp) (fun _ _ => trivial) (fun v _ => Know.holds_nothing v)
        (List.Subset.refl p) (List.Subset.refl p)
    · split
      · rename_i hall
        exact neighbours.mono (hround _ hall) (fun _ _ => trivial) (fun v _ => Know.holds_nothing v)
          (fun b _ => b.mem_all) (List.Subset.refl _)
      · trivial
  | commas strict c a ih =>
    have hround : ∀ q : List Bar, p ⊆ q →
        neighbours.Leaves call (c.learn true {}).Holds p a (fun _ => True) q →
        neighbours.Leaves call K.Holds p (.commas strict c a) (Know.Holds {}) q := by
      intro q hpq ha
      refine neighbours.mono (.commas hadv (neighbours.mono ha ?_ (fun _ hv => hv) (List.Subset.refl p)
        (List.Subset.refl q)) (neighbours.mono (neighbours.comma q) (fun _ hv => hv) (fun _ hv => hv)
        (List.Subset.refl q) (List.nil_subset p)) (fun s => ⟨[], by simp, hpq⟩)) (fun _ _ => trivial)
        (fun v _ => Know.holds_nothing v) (List.Subset.refl p) (List.Subset.refl q)
      exact fun v hv => Cond.learn_holds hv (Know.holds_nothing v)
    have ha := ih (c.learn true {}) p
    rw [outlook]
    split
    · trivial
    · rename_i ho
      rw [ho] at ha
      exact hround p (List.Subset.refl p) (ha _ _)
    · rename_i L q ho
      rw [ho] at ha
      exact hround _ (List.subset_append_left p q) (neighbours.mono ha (fun _ hv => hv) (fun _ _ => trivial)
        (List.Subset.refl p) (List.subset_append_right p q))
  | progress a ih => exact (ih K p).of_imp (fun _ _ => .progress hadv)
  | inQuery a ih =>
    have hview : ∀ {K : Know} {v : View} (n : Nat), K.Holds { v with queries := n } → K.Holds v :=
      fun _ h => ⟨h.first, h.second, h.some⟩
    have ha := ih K p
    rw [outlook]
    cases ho : outlook gate a K p with
    | unknown => trivial
    | never =>
      rw [ho] at ha
      refine fun Q q => .inQuery (neighbours.mono (ha _ q) ?_ (fun _ hv => hv) (List.Subset.refl p)
        (List.Subset.refl q))
      rintro v ⟨n, hv⟩
      exact hview n hv
    | here L q =>
      rw [ho] at ha
      refine .inQuery (neighbours.mono ha ?_ (fun v hv n => ⟨hv.first, hv.second, hv.some⟩) (List.Subset.refl p)
        (List.Subset.refl q))
      rintro v ⟨n, hv⟩
      exact hview n hv
  | call g =>
    rw [outlook]
    split
    · rename_i hp
      simp only [Bool.and_eq_true, Bool.or_eq_true, Bool.not_eq_true'] at hp
      refine neighbours.mono (hcall g) (fun v hv => ?_) (fun v _ => Know.holds_nothing v)
        (fun b hb => by simpa using List.all_eq_true.mp hp.1 b hb) (List.Subset.refl _)
      refine ⟨?_, rfl, by simp [Gate.known]⟩
      simp only [Gate.known, Bool.or_eq_true, Bool.not_eq_true']
      refine hp.2.imp_right (fun hc => ?_)
      by_contra hmem
      exact Bool.eq_false_iff.mp hc (List.any_eq_true.mpr ⟨_, by simpa using hmem, hv.first⟩)
    · trivial

end Sound

def Symbol.gate : Symbol → Gate
  | .compilationUnit | .usingDirective | .namespaceDecl | .member | .constraints | .typeParameterList | .statement
  | .embedded | .arrayRanks => { before := [] }
  | .pattern => { before := [], after := [.call] }
  | .queryBody => { before := [.call], after := [.call] }
  | .attributes => { before := [.call, .keyword], after := [.call, .keyword] }
  | .variableDeclaration => { before := Bar.all, after := [.call] }
  | .parameterList | .bracketedParameterList | .accessorList | .block | .initializer | .argumentList
      | .bracketedArgumentList | .type _ | .plainType | .typeArgumentList => { before := Bar.all }
  | .creation => { before := [.keyword, .opener], guarded := true }
  | _ => { before := [.keyword, .opener], after := [.call] }

structure Neighbourly (call : Symbol → State → State) : Prop where
  advances : ∀ g (s : State), s.Advances (call g s)
  single : ∀ g : Symbol, g.isExpression = true → Action.Single call g
  kept : ∀ g : Symbol, neighbours.Leaves call g.gate.known.Holds g.gate.before (.call g) (fun _ => True) g.gate.after

namespace Neighbourly

open Trail

variable {call : Symbol → State → State} (h : Neighbourly call)

include h

theorem unguarded {P : View → Prop} {p q : List Bar} (a : Rule) (ha : (outlook Symbol.gate a {} p).within q = true) :
    neighbours.Leaves call P p a (fun _ => True) q :=
  neighbours.mono ((outlook_holds h.advances h.kept a {} p).leaves ha) (fun v _ => Know.holds_nothing v)
    (fun _ hv => hv) (List.Subset.refl p) (List.Subset.refl q)

theorem guarded {P : View → Prop} {p q : List Bar} (c : Cond) (a : Rule)
    (ha : (outlook Symbol.gate a (c.learn true {}) p).within q = true) :
    neighbours.Leaves call (fun v => P v ∧ c.holds v = true) p a (fun _ => True) q :=
  neighbours.mono ((outlook_holds h.advances h.kept a _ p).leaves ha)
    (fun v hv => Cond.learn_holds hv.2 (Know.holds_nothing v)) (fun _ hv => hv) (List.Subset.refl p)
    (List.Subset.refl q)

omit h in
theorem take_sign {P Q : View → Prop} (hP : ∀ v, P v → v.kindAt 0 ∉ .eof :: callers)
    (hQ : ∀ v, P v → Q { v with rest := v.rest.tail }) : neighbours.Leaves call P [.call, .keyword] .take Q
      [.keyword] := by
  refine neighbours.take (fun v _ b hb => ?_) (fun v hv b hb => ?_) (fun v hv hr => ?_) hQ
  · obtain rfl | rfl : b = .call ∨ b = .keyword := by simpa using hb
    · simp [Bar.stops]
    · simp [Bar.stops]
  · cases b with
    | call =>
      exact absurd (List.mem_cons_of_mem _ (by simpa [Bar.raisedBy] using hb)) (hP v hv)
    | keyword => exact List.mem_singleton.mpr rfl
    | opener => simp [Bar.raisedBy] at hb
  · exact absurd (by simp [View.kindAt, hr]) (hP v hv)

theorem leaves_sign {P : View → Prop} {f : View → Bool} (hP : ∀ v, P v → v.kindAt 0 ∉ .eof :: callers)
    (hf : ∀ v, f v = true → v.kindAt 1 ∉ .eof :: callers) :
    neighbours.Leaves call P [.call] (.seq (Rule.when (.look f) .take) .take) (fun _ => True) [.keyword] := by
  refine neighbours.mono (.seq (Q := fun v => v.kindAt 0 ∉ .eof :: callers) (p := [.call, .keyword]) h.advances
    (.branch (neighbours.mono (take_sign ?_ ?_) (fun _ hv => hv) (fun _ hv => hv) (List.Subset.refl _)
      (List.subset_cons_self _ _)) ?_)
    (take_sign (fun _ hv => hv) (fun _ _ => trivial))) (fun _ hv => hv) (fun _ hv => hv) (by decide)
    (List.Subset.refl _)
  · exact fun v hv => hP v hv.1
  · intro v hv
    rw [kindAt_tail]
    exact hf v hv.2
  · exact neighbours.mono .skip (fun v hv => hP v hv.1) (fun _ hv => hv) (List.Subset.refl _) (List.Subset.refl _)

theorem leaves_assignment :
    neighbours.Leaves call (fun _ => True) [.keyword, .opener] Rule.assignment (fun _ => True) [.call] := by
  refine .branch (h.guarded _ _ rfl) (.branch (h.guarded _ _ rfl) (.scope (.seq h.advances
    (h.unguarded (q := [.call]) (.call .conditional) rfl) (.branch (neighbours.wrap (by decide)
      (.seq h.advances (h.leaves_sign ?_ ?_) (h.unguarded _ rfl)))
      (neighbours.mono .skip (fun _ hv => hv) (fun _ _ => trivial) (List.Subset.refl _) (List.Subset.refl _))))))
  · rintro v ⟨-, hv⟩ hmem
    simp only [Cond.holds, Bool.or_eq_true, Rule.shiftAssign, CallsKept.startsShiftAssign_iff] at hv
    obtain hv | hv := hv
    · have hall : ∀ k ∈ .eof :: callers, Rule.isAssignmentSign k = false := by decide
      rw [hall _ hmem] at hv
      cases hv
    · rw [hv.1] at hmem
      exact absurd hmem (by decide)
  · intro v hv
    rw [((CallsKept.startsShiftAssign_iff v).mp hv).2.1]
    decide

omit h in
theorem not_mem_of_precedence? {v : View} {n : Nat} (hv : v.precedence? = some n) : v.kindAt 0 ∉ .eof :: callers := by
  intro hmem
  obtain hk | hk | hk | hmem : v.kindAt 0 = .eof ∨ v.kindAt 0 = .newKw ∨ v.kindAt 0 = .defaultKw ∨
    v.kindAt 0 ∈ callKinds := by
    simpa [callers] using hmem
  · simp [View.precedence?, View.startsShiftRight, View.startsShiftAssign, hk] at hv
  · simp [View.precedence?, View.startsShiftRight, View.startsShiftAssign, hk] at hv
  · simp [View.precedence?, View.startsShiftRight, View.startsShiftAssign, hk] at hv
  · exact CallsKept.not_mem_of_precedence? hv hmem

theorem leaves_binaryLevel (level : Nat) :
    neighbours.Leaves call (fun v => (Rule.binaryLevel level).1.holds v = true) [.call] (Rule.binaryLevel level).2
      (fun _ => True) [.call] := by
  refine neighbours.wrap (by decide) (.seq h.advances (h.leaves_sign ?_ ?_) (h.unguarded _ rfl))
  · intro v hv
    exact not_mem_of_precedence? (by simpa [Rule.binaryLevel, Cond.holds] using hv)
  · intro v hv
    rw [((CallsKept.startsShiftRight_iff v).mp hv).2.1]
    decide

theorem leaves_binary (level : Nat) :
    neighbours.Leaves call (fun _ => True) [.keyword, .opener] (Rule.binary level) (fun _ => True) [.call] := by
  refine .scope (.seq h.advances (h.unguarded (q := [.call]) (.call .unary) rfl) (.loop h.advances (.choose ?_ ?_)))
  · intro c hc
    obtain hc | hc := List.mem_append.mp hc
    · simp only [List.mem_cons, List.not_mem_nil, or_false] at hc
      obtain rfl | rfl := hc
      · exact h.guarded _ _ rfl
      · exact h.guarded _ _ rfl
    · obtain ⟨n, -, rfl⟩ := List.mem_map.mp hc
      exact neighbours.mono (h.leaves_binaryLevel n) (fun _ hv => hv.2) (fun _ hv => hv) (List.Subset.refl _)
        (List.Subset.refl _)
  · exact h.unguarded _ rfl

theorem leaves_parenExpr {P : View → Prop} :
    neighbours.Leaves call (fun v => P v ∧ (Rule.sees [.lParen]).holds v = true) [.keyword, .opener]
      (Rule.node .parenExpr (.take ++ Rule.expression ++ Rule.expect .rParen)) (fun _ => True) [.call] := by
  intro s hs hquiet
  have hfirst : headKind s.rest = .lParen := by simpa [holds_sees] using hs.2
  obtain ⟨i, rest, hr, hi⟩ := exists_cons_of_headKind hfirst (by simp)
  have hopen : (State.take { s with built := [] }).bare = [.leaf i.toToken] :=
    State.bare_take (s := { s with built := [] }) hr
  obtain ⟨hq₁, hq₂⟩ := (h.advances .expression (State.take { s with built := [] })).quiet
    ((Rule.expect .rParen).advances h.advances _) (by rw [State.Quiet, State.complaints_take]; exact hquiet)
  obtain ⟨k, cs, hx⟩ := h.single .expression rfl _ hq₁
  obtain ⟨⟨ds, hds, hpass⟩, -⟩ := h.kept .expression _ ⟨rfl, rfl, by simp [Gate.known]⟩ hq₁
  -- What the expression adds does not depend on the node it is put in.
  have hnode : ds = (Tree.cellsAll k cs).map Cell.trait := by
    rw [Action.run, State.traits_of_bare hx, List.append_cancel_left_eq] at hds
    simpa [Tree.cellsAll, Tree.cells] using hds.symm
  have hclose : (Rule.sees [.rParen]).holds (call .expression (State.take { s with built := [] })).toView = true := by
    by_contra hc
    rw [Rule.expect, Action.run, if_neg hc] at hq₂
    simp [State.Quiet, Action.run, State.complain] at hq₂
  have hlast : headKind (call .expression (State.take { s with built := [] })).rest = .rParen := by
    simpa [holds_sees] using hclose
  obtain ⟨j, rest', hr', hj⟩ := exists_cons_of_headKind hlast (by simp)
  have hrun : Action.run call (.take ++ Rule.expression ++ Rule.expect .rParen : Rule) { s with built := [] } =
      State.take (call .expression (State.take { s with built := [] })) := by
    show (if _ then _ else _) = _
    exact if_pos hclose
  refine ⟨⟨(.lParen, true) :: (ds ++ [(.rParen, true)]), ?_, ?_, ?_⟩, trivial⟩
  · rw [Rule.node, Action.run, State.traits_of_bare (State.bare_enclose s _), Action.run, State.bare_wrap, hrun,
      State.bare_take hr', hx, hopen, hnode]
    simp [Tree.cellsAll, Tree.cells, Tree.leaf, Cell.trait, hi, hj]
  · intro b hb
    obtain rfl | rfl : b = .keyword ∨ b = .opener := by simpa using hb
    · rfl
    · rfl
  · exact (hpass.weaken (show [Bar.opener] ⊆ _ by decide) (List.Subset.refl _)).append
      ⟨by simp [Symbol.gate, Bar.stops], show Bar.of (.rParen, true) ⊆ [.call] by decide⟩

theorem leaves_primary :
    neighbours.Leaves call (fun _ => True) [.keyword, .opener] Rule.primary (fun _ => True) [.call] := by
  refine .choose (fun c hc => ?_) (h.unguarded _ rfl)
  simp only [List.mem_cons, List.not_mem_nil, or_false] at hc
  obtain rfl | rfl | rfl | rfl | rfl | rfl | rfl | rfl | rfl | rfl | rfl | rfl | rfl | rfl | rfl := hc
  case inr.inr.inr.inr.inr.inr.inl => exact h.leaves_parenExpr
  all_goals exact h.guarded _ _ rfl

end Neighbourly

theorem outlook_rule : ∀ g ∈ Symbol.without [.assignment, .primary],
    (outlook Symbol.gate (rule g) g.gate.known g.gate.before).within g.gate.after = true := by
  decide +kernel

theorem neighbourly (n : Nat) : Neighbourly (Action.runStrict rule n) := by
  induction n with
  | zero =>
    refine ⟨Action.advances_runStrict rule 0, fun g hg => single_runStrict 0 hg, fun g s _ hq => ?_⟩
    simp [State.Quiet, Action.run, Action.runStrict, State.complain] at hq
  | succ n ih =>
    refine ⟨Action.advances_runStrict rule (n + 1), fun g hg => single_runStrict (n + 1) hg, fun g => ?_⟩
    show neighbours.Leaves (Action.runStrict rule n) g.gate.known.Holds g.gate.before (rule g) (fun _ => True)
      g.gate.after
    have hrule : (outlook Symbol.gate (rule g) g.gate.known g.gate.before).within g.gate.after = true →
        neighbours.Leaves (Action.runStrict rule n) g.gate.known.Holds g.gate.before (rule g) (fun _ => True)
          g.gate.after :=
      (outlook_holds ih.advances ih.kept (rule g) g.gate.known g.gate.before).leaves
    cases g with
    | assignment => exact fun s _ => ih.leaves_assignment s trivial
    | binary level => exact fun s _ => ih.leaves_binary level s trivial
    | primary => exact fun s _ => ih.leaves_primary s trivial
    | type inExpression => cases inExpression <;> exact hrule (outlook_rule _ (by decide))
    | _ => exact hrule (outlook_rule _ (by decide))

theorem mayMeet_outline {items : List Item} (h : (outline items).2 = []) :
    (Tree.cellsAll .compilationUnit (Outline.bareAll (outline items).1)).IsChain
      (fun c d => MayMeet c.trait d.trait) := by
  obtain ⟨⟨cs, hcs, hpass⟩, -⟩ := (neighbourly (depth items)).kept .compilationUnit { rest := items }
    ⟨rfl, rfl, by simp [Gate.known]⟩ (quiet_outline h)
  have htraits : (Tree.cellsAll .compilationUnit (Outline.bareAll (outline items).1)).map Cell.trait = cs := by
    rw [Action.run, runStrict_outline h] at hcs
    simpa [State.traits, State.bare, Outline.bareAll, Tree.cellsAll, outline] using hcs
  rw [← List.isChain_map Cell.trait, htraits]
  exact hpass.isChain

end Grammar

end Lintel
