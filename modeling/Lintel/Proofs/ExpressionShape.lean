import Lintel.Proofs.NodeContents
import Lintel.Proofs.TypeLookahead

namespace Lintel

open Outline

namespace Outline

theorem bareAll_append (cs ds : List Outline) : bareAll (cs ++ ds) = bareAll cs ++ bareAll ds := by
  induction cs with
  | nil => rfl
  | cons c cs ih => simp [bareAll, ih]

end Outline

namespace Grammar

namespace State

def bare (s : State) : List Tree :=
  bareAll s.built.reverse

theorem bare_push (s : State) (o : Outline) : { s with built := o :: s.built }.bare = s.bare ++ o.bare := by
  simp [bare, bareAll_append, bareAll]

theorem bare_wrap (k : Kind) (s : State) : (s.wrap k).bare = [.node k s.bare] := by
  simp [wrap, bare, bareAll, Outline.bare]

theorem bare_enclose (s : State) (f : State → State) :
    (s.enclose f).bare = s.bare ++ (f { s with built := [] }).bare := by
  simp [enclose, bare, bareAll_append, bareAll, Outline.bare]

theorem bare_take {s : State} {i : Item} {rest : List Item} (h : s.rest = i :: rest) :
    s.take.bare = s.bare ++ [Tree.leaf i.toToken] := by
  rw [take, h]
  exact bare_push _ _

end State

/-- What an analysis says was built since some point: nothing, one node, or it does not know. Where it says `never`,
nothing gets there without a complaint. -/
inductive Yield where
  | nothing | one | unknown | never
  deriving DecidableEq

namespace Yield

def add : Yield → Yield → Yield
  | never, _ => never
  | _, never => never
  | nothing, y => y
  | y, nothing => y
  | _, _ => unknown

def join : Yield → Yield → Yield
  | never, y => y
  | y, never => y
  | y, z => if y = z then y else unknown

def Holds (base : List Tree) : Yield → State → Prop
  | nothing, s => s.bare = base
  | one, s => ∃ k cs, s.bare = base ++ [.node k cs]
  | unknown, _ => True
  | never, _ => False

variable {base : List Tree} {s : State}

theorem Holds.of_bare {y : Yield} {t : State} (h : y.Holds base s) (ht : t.bare = s.bare) : y.Holds base t := by
  cases y with
  | nothing => exact ht.trans h
  | one =>
    obtain ⟨k, cs, hcs⟩ := h
    exact ⟨k, cs, ht.trans hcs⟩
  | unknown => trivial
  | never => exact h

theorem Holds.join_left {y z : Yield} (h : y.Holds base s) : (y.join z).Holds base s := by
  cases y <;> cases z <;> first | exact h | trivial

theorem Holds.join_right {y z : Yield} (h : z.Holds base s) : (y.join z).Holds base s := by
  cases y <;> cases z <;> first | exact h | trivial

theorem Holds.add {y z : Yield} {f : State → State} (h : y.Holds base s) (hf : z.Holds [] (f { s with built := [] })) :
    (y.add z).Holds base (s.enclose f) := by
  have hbare := State.bare_enclose s f
  cases y with
  | never => exact h
  | unknown => cases z <;> first | exact hf | trivial
  | nothing =>
    rw [show s.bare = base from h] at hbare
    cases z with
    | nothing => rw [hf, List.append_nil] at hbare; exact hbare
    | one =>
      obtain ⟨k, cs, hcs⟩ := hf
      rw [hcs] at hbare
      exact ⟨k, cs, hbare⟩
    | unknown => trivial
    | never => exact hf
  | one =>
    cases z with
    | nothing =>
      obtain ⟨k, cs, hcs⟩ := h
      rw [hf, List.append_nil, hcs] at hbare
      exact ⟨k, cs, hbare⟩
    | never => exact hf
    | _ => trivial

end Yield

namespace Action

variable {σ : Type}

def yield (single : σ → Bool) : Action σ → Bool → Yield → Yield
  | skip, _, y => y
  | complain _, _, _ => .never
  | seq a b, clean, y => b.yield single clean (a.yield single clean y)
  | scope a, _, y => y.add (a.yield single true .nothing)
  | wrap _ a, clean, y =>
    if a.yield single clean y = .never then .never else if clean then .one else .unknown
  | branch _ a b, clean, y => (a.yield single clean y).join (b.yield single clean y)
  | loop _ a, clean, y => if (a.yield single clean y).join y = y then y else .unknown
  | progress a, clean, y => a.yield single clean y
  | inQuery a, clean, y => a.yield single clean y
  | call g, _, y => if single g then y.add .one else .unknown
  | _, _, _ => .unknown

def Single (call : σ → State → State) (g : σ) : Prop :=
  ∀ s : State, s.Quiet (call g s) → ∃ k cs, (call g s).bare = s.bare ++ [Tree.node k cs]

theorem holds_repeatWhile {c : Cond} {f : State → State} {P : State → Prop} (hadv : ∀ s : State, s.Advances (f s))
    (hf : ∀ s : State, P s → s.Quiet (f s) → P (f s)) (n : Nat) {s : State} (hs : P s)
    (hq : s.Quiet (State.repeatWhile c f n s)) : P (State.repeatWhile c f n s) := by
  induction n generalizing s with
  | zero => exact hs
  | succ n ih =>
    rw [State.repeatWhile] at hq ⊢
    split
    · rename_i hc
      rw [if_pos hc] at hq
      obtain ⟨hq₁, hq₂⟩ := (hadv s).quiet (State.steady_advances.repeatWhile (fun s _ => hadv s) n (f s)) hq
      exact ih (hf s hs hq₁) hq₂
    · exact hs

theorem yield_holds {single : σ → Bool} {call : σ → State → State} (hadv : ∀ g (s : State), s.Advances (call g s))
    (hcall : ∀ g, single g = true → Single call g) (a : Action σ) {clean : Bool} {y : Yield} {base : List Tree}
    {s : State} (hclean : clean = true → base = []) (hs : y.Holds base s) (hq : s.Quiet (a.run call s)) :
    (a.yield single clean y).Holds base (a.run call s) := by
  induction a generalizing clean y base s with
  | skip => exact hs
  | take | takeAs | commas => trivial
  | complain f => simp [State.Quiet, run, State.complain] at hq
  | seq a b iha ihb =>
    obtain ⟨hqa, hqb⟩ := (a.advances hadv s).quiet (b.advances hadv _) hq
    exact ihb hclean (iha hclean hs hqa) hqb
  | scope a ih => exact hs.add (ih (s := { s with built := [] }) (fun _ => rfl) rfl hq)
  | wrap k a ih =>
    have ha := ih hclean hs hq
    rw [yield]
    split
    · rename_i hnever
      rw [hnever] at ha
      exact ha
    · split
      · rename_i hc
        rw [hclean hc]
        exact ⟨k, _, State.bare_wrap k _⟩
      · trivial
  | branch c a b iha ihb =>
    rw [run] at hq ⊢
    split
    · rename_i hc
      rw [if_pos hc] at hq
      exact (iha hclean hs hq).join_left
    · rename_i hc
      rw [if_neg hc] at hq
      exact (ihb hclean hs hq).join_right
  | loop c a ih =>
    rw [yield]
    split
    · rename_i hstay
      refine holds_repeatWhile (P := y.Holds base) (a.advances hadv) (fun t ht hqt => ?_) _ hs hq
      have hnext := (ih hclean ht hqt).join_left (z := y)
      rwa [hstay] at hnext
    · trivial
  | progress a ih =>
    obtain ⟨hqa, hqb⟩ := (a.advances hadv s).quiet (State.steady_advances.setAside _ _) hq
    rw [run, State.setAside_of_quiet hqb]
    exact ih hclean hs hqa
  | inQuery a ih => exact (ih (s := { s with queries := s.queries + 1 }) hclean (hs.of_bare rfl) hq).of_bare rfl
  | call g =>
    rw [yield]
    split
    · rename_i hg
      obtain ⟨k, cs, hcs⟩ := hcall g hg s hq
      cases y with
      | nothing => exact ⟨k, cs, by rw [run, hcs, show s.bare = base from hs]⟩
      | never => exact hs
      | _ => trivial
    · trivial

end Action

def Symbol.isExpression : Symbol → Bool
  | .expression | .assignment | .conditional | .coalesce | .binary _ | .unary | .suffixed | .primary | .creation
  | .initializer | .lambda | .query => true
  | _ => false

theorem rule_yields {g : Symbol} (h : g.isExpression = true) :
    (rule g).yield Symbol.isExpression false .nothing = .one := by
  cases g with
  | binary level => rfl
  | _ => first | rfl | cases h

theorem single_runStrict (n : Nat) {g : Symbol} (h : g.isExpression = true) :
    Action.Single (Action.runStrict rule n) g := by
  induction n generalizing g with
  | zero =>
    intro s hq
    simp [State.Quiet, Action.runStrict, State.complain] at hq
  | succ n ih =>
    intro s hq
    have hone : ((rule g).yield Symbol.isExpression false .nothing).Holds s.bare (Action.runStrict rule (n + 1) g s) :=
      Action.yield_holds (Action.advances_runStrict rule n) (fun g hg => ih hg) (rule g) (by rintro ⟨⟩) rfl hq
    rw [rule_yields h] at hone
    exact hone

def Formed (k : Kind) (cs : List Outline) : Prop :=
  (k = .parenExpr → ∃ l x r, bareAll cs = [.leaf l, x, .leaf r] ∧ l.kind = .lParen ∧ x.isNode = true ∧
    r.kind = .rParen) ∧
  (k = .literalExpr → ∃ t, cs = [.token t] ∧ t.kind.isLiteral = true)

theorem formed_of_ne {k : Kind} (hp : k ≠ .parenExpr) (hl : k ≠ .literalExpr) (cs : List Outline) : Formed k cs :=
  ⟨fun h => absurd h hp, fun h => absurd h hl⟩

section Keeps

variable {n : Nat} (hcall : ∀ g (s : State), s.Quiet (Action.runStrict rule n g s) → s.Every Formed →
  (Action.runStrict rule n g s).Every Formed) {P : View → Prop}

omit hcall in
theorem keeps_literalExpr :
    Action.Keeps Formed (Action.runStrict rule n) (fun v => P v ∧ (Cond.ahead 0 Kind.isLiteral).holds v = true)
      (Rule.node .literalExpr .take) := by
  intro s hs hquiet hev
  have hkind : (s.kindAt 0).isLiteral = true := hs.2
  cases hr : s.rest with
  | nil => simp [View.kindAt, hr, Kind.isLiteral] at hkind
  | cons i rest =>
    refine State.every_enclose hev (State.every_wrap _ (State.every_take (by simp [State.Every]))
      ⟨by rintro ⟨⟩, fun _ => ?_⟩)
    refine ⟨i.toToken, by simp [Action.run, State.take, hr], ?_⟩
    simpa [View.kindAt, hr] using hkind

include hcall

theorem keeps_parenExpr :
    Action.Keeps Formed (Action.runStrict rule n) (fun v => P v ∧ (Rule.sees [.lParen]).holds v = true)
      (Rule.node .parenExpr (.take ++ Rule.expression ++ Rule.expect .rParen)) := by
  intro s hs hquiet hev
  have hadv := Action.advances_runStrict rule n
  have hinner : Action.Keeps Formed (Action.runStrict rule n) (fun _ => True)
      (Action.take ++ Rule.expression ++ Rule.expect .rParen : Rule) := by
    apply Action.keeps_of_nodes hadv hcall
    intro k hk
    cases hk
  have hfirst : headKind s.rest = .lParen := by simpa [holds_sees] using hs.2
  obtain ⟨i, rest, hr, hi⟩ := exists_cons_of_headKind hfirst (by simp)
  have hopen : (State.take { s with built := [] }).bare = [.leaf i.toToken] :=
    State.bare_take (s := { s with built := [] }) hr
  -- The expression comes after the parenthesis, and then another parenthesis.
  obtain ⟨hq₁, hq₂⟩ := (hadv .expression (State.take { s with built := [] })).quiet
    ((Rule.expect .rParen).advances hadv _) (by rw [State.Quiet, State.complaints_take]; exact hquiet)
  obtain ⟨k, cs, hx⟩ := single_runStrict n (g := .expression) rfl _ hq₁
  refine State.every_enclose hev (State.every_wrap _ (hinner _ trivial hquiet (by simp [State.Every]))
    ⟨fun _ => ?_, by rintro ⟨⟩⟩)
  have hclose : (Rule.sees [.rParen]).holds
      (Action.runStrict rule n .expression (State.take { s with built := [] })).toView = true := by
    by_contra hc
    rw [Rule.expect, Action.run, if_neg hc] at hq₂
    simp [State.Quiet, Action.run, State.complain] at hq₂
  have hlast : headKind (Action.runStrict rule n .expression (State.take { s with built := [] })).rest = .rParen := by
    simpa [holds_sees] using hclose
  obtain ⟨j, rest', hr', hj⟩ := exists_cons_of_headKind hlast (by simp)
  refine ⟨i.toToken, .node k cs, j.toToken, ?_, hi, rfl, hj⟩
  have hrun : Action.run (Action.runStrict rule n) (.take ++ Rule.expression ++ Rule.expect .rParen : Rule)
      { s with built := [] } =
      State.take (Action.runStrict rule n .expression (State.take { s with built := [] })) := by
    show (if _ then _ else _) = _
    exact if_pos hclose
  rw [hrun, ← State.bare, State.bare_take hr', hx, hopen]
  rfl

theorem keeps_formed (g : Symbol) : Action.Keeps Formed (Action.runStrict rule n) (fun _ => True) (rule g) := by
  have hplain : ∀ {P : View → Prop} (a : Rule), a.nodes.all (fun k => k != .parenExpr && k != .literalExpr) = true →
      Action.Keeps Formed (Action.runStrict rule n) P a := by
    intro P a ha
    refine Action.keeps_of_nodes (Action.advances_runStrict rule n) hcall (fun k hk => ?_)
    have hne := List.all_eq_true.mp ha k hk
    simp only [bne_iff_ne, Bool.and_eq_true] at hne
    exact formed_of_ne hne.1 hne.2
  cases g with
  | primary =>
    refine Action.Keeps.choose (fun c hc => ?_) (hplain _ rfl)
    simp only [List.mem_cons, List.not_mem_nil, or_false] at hc
    obtain rfl | rfl | rfl | rfl | rfl | rfl | rfl | rfl | rfl | rfl | rfl | rfl | rfl | rfl | rfl := hc
    case inl => exact keeps_literalExpr
    case inr.inr.inr.inr.inr.inr.inl => exact keeps_parenExpr hcall
    all_goals exact hplain _ rfl
  | type inExpression => cases inExpression <;> exact hplain _ rfl
  | _ => exact hplain _ rfl

end Keeps

theorem formed_runStrict (n : Nat) (g : Symbol) (s : State) (hq : s.Quiet (Action.runStrict rule n g s))
    (hs : s.Every Formed) : (Action.runStrict rule n g s).Every Formed := by
  induction n generalizing g s with
  | zero => exact hs
  | succ n ih => exact keeps_formed ih g s trivial hq hs

theorem formed_outline {items : List Item} (h : (outline items).2 = []) : EveryAll Formed (outline items).1 := by
  have hformed := formed_runStrict _ _ _ (quiet_outline h) (by simp [State.Every])
  rw [runStrict_outline h] at hformed
  rw [everyAll_iff]
  exact fun o ho => hformed o (List.mem_reverse.mp ho)

end Grammar

end Lintel
