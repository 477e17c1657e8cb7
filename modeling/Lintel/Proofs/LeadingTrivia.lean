import Lintel.Proofs.Drafts
import Lintel.Proofs.ExpressionShape
import Lintel.Proofs.FaultlessText

namespace Lintel

namespace Outline

def isGap : Outline → Bool
  | .gap => true
  | _ => false

mutual

/-- Nodes come where a gap has taken the trivia before the next token, which is so at the start if `ready`. -/
def Led (ready : Bool) : Outline → Prop
  | .token _ => True
  | .gap => True
  | .node _ cs => ready = true ∧ LedAll true cs

def LedAll (ready : Bool) : List Outline → Prop
  | [] => True
  | c :: cs => c.Led ready ∧ LedAll c.isGap cs

end

theorem LedAll.append {ready : Bool} {cs ds : List Outline} (hc : LedAll ready cs) (hd : ∀ ready, LedAll ready ds) :
    LedAll ready (cs ++ ds) := by
  induction cs generalizing ready with
  | nil => exact hd ready
  | cons c cs ih => exact ⟨hc.1, ih hc.2⟩

end Outline

namespace Grammar

namespace State

def Led (ready : Bool) (s : State) : Prop :=
  Outline.LedAll ready s.built.reverse

variable {ready : Bool} {s : State}

theorem led_take (h : s.Led ready) : s.take.Led ready := by
  unfold take
  split
  · exact h
  · rw [Led, List.reverse_cons]
    exact h.append fun _ => ⟨trivial, trivial⟩

theorem led_takeAs (h : s.Led ready) (k : Kind) : (s.takeAs k).Led ready := by
  unfold takeAs
  split
  · exact h
  · rw [Led, List.reverse_cons]
    exact h.append fun _ => ⟨trivial, trivial⟩

theorem led_wrap (h : s.Led true) (k : Kind) : (s.wrap k).Led true :=
  ⟨⟨rfl, h⟩, trivial⟩

theorem led_enclose {f : State → State} (h : s.Led ready) (hf : (f { s with built := [] }).Led true) :
    (s.enclose f).Led ready := by
  rw [Led, enclose, List.reverse_append, List.reverse_cons, List.append_assoc]
  exact h.append fun _ => ⟨trivial, hf⟩

theorem led_setAside (h : s.Led ready) (before : Nat) : (s.setAside before).Led ready := by
  unfold setAside
  split
  · refine led_enclose h (led_wrap (led_take ?_) _)
    exact trivial
  · exact h

theorem led_repeatWhile {c : Cond} {f : State → State} (hf : ∀ s : State, s.Led ready → (f s).Led ready) (n : Nat)
    (h : s.Led ready) : (repeatWhile c f n s).Led ready := by
  induction n generalizing s with
  | zero => exact h
  | succ n ih =>
    rw [repeatWhile]
    split
    · exact ih (hf s h)
    · exact h

theorem led_repeatCommas {c : Cond} {f : State → State} (hf : ∀ s : State, s.Led ready → (f s).Led ready)
    (strict : Bool) (n : Nat) (h : s.Led ready) : (repeatCommas strict c f n s).Led ready := by
  induction n generalizing s with
  | zero => exact h
  | succ n ih =>
    rw [repeatCommas]
    split
    · have hs := hf s h
      dsimp only
      split
      · exact ih (led_take hs)
      · split
        · exact led_setAside hs _
        · exact hs
    · exact h

end State

namespace Action

variable {σ : Type}

def reaches : Action σ → Bool
  | seq a b => a.reaches || b.reaches
  | wrap _ _ => true
  | branch _ a b => a.reaches || b.reaches
  | loop _ a => a.reaches
  | commas _ _ a => a.reaches
  | progress a => a.reaches
  | inQuery a => a.reaches
  | _ => false

theorem led_run {call : σ → State → State} (hcall : ∀ g ready (s : State), s.Led ready → (call g s).Led ready)
    (a : Action σ) {ready : Bool} {s : State} (ha : a.reaches = true → ready = true) (h : s.Led ready) :
    (a.run call s).Led ready := by
  induction a generalizing ready s with
  | skip | complain => exact h
  | take => exact State.led_take h
  | takeAs k => exact State.led_takeAs h k
  | seq a b iha ihb =>
    exact ihb (fun hb => ha (by rw [reaches, hb, Bool.or_true])) (iha (fun hr => ha (by rw [reaches, hr]; rfl)) h)
  | scope a ih => exact State.led_enclose h (ih (fun _ => rfl) trivial)
  | wrap k a ih =>
    obtain rfl := ha rfl
    exact State.led_wrap (ih (fun _ => rfl) h) k
  | branch c a b iha ihb =>
    rw [run]
    split
    · exact iha (fun hr => ha (by rw [reaches, hr]; rfl)) h
    · exact ihb (fun hr => ha (by rw [reaches, hr, Bool.or_true])) h
  | loop c a ih => exact State.led_repeatWhile (fun s hs => ih ha hs) _ h
  | commas strict c a ih => exact State.led_repeatCommas (fun s hs => ih ha hs) strict _ h
  | progress a ih => exact State.led_setAside (ih ha h) _
  | inQuery a ih => exact ih (s := { s with queries := s.queries + 1 }) ha h
  | call g => exact hcall g ready s h

theorem led_runNamed {rule : σ → Action σ} (hrule : ∀ g, (rule g).reaches = false) (n : Nat) (g : σ) (ready : Bool)
    (s : State) (h : s.Led ready) : (runNamed rule n g s).Led ready := by
  induction n generalizing g ready s with
  | zero => exact h
  | succ n ih => exact led_run ih (rule g) (by rw [hrule]; nofun) h

end Action

theorem rule_reaches (g : Symbol) : (rule g).reaches = false := by
  cases g <;> rfl

theorem led_outline (items : List Item) : Outline.LedAll false (outline items).1 :=
  Action.led_runNamed rule_reaches _ _ false _ trivial

end Grammar

namespace Outline

def Gaps.Ready (gaps : Gaps) : Prop :=
  ∀ g ∈ gaps.head?, g = []

theorem ready_weave_gap {c : Outline} (hc : c.isGap = true) (gaps : Gaps) : Gaps.Ready (weave c gaps).2 := by
  cases c with
  | token t => cases hc
  | node k cs => cases hc
  | gap =>
    cases gaps with
    | nil => nofun
    | cons g gaps =>
      rintro g' ⟨⟩
      rfl

theorem eachAll_leaves (Q : Kind → List Tree → Prop) (ts : List Token) : Tree.EachAll Q (ts.map .leaf) := by
  induction ts with
  | nil => trivial
  | cons t ts ih => exact ⟨trivial, ih⟩

mutual

theorem plain_weave {ready : Bool} : (o : Outline) → (gaps : Gaps) → (ready = true → gaps.Ready) → o.Led ready →
    o.Every Grammar.Formed → Tree.EachAll Tree.Plain (weave o gaps).1
  | .token t, [], _, _, _ => ⟨trivial, trivial⟩
  | .token t, g :: gaps, _, _, _ => by
    rw [weave]
    exact Tree.eachAll_append.mpr ⟨eachAll_leaves _ g, trivial, trivial⟩
  | .gap, [], _, _, _ => trivial
  | .gap, g :: gaps, _, _, _ => eachAll_leaves _ g
  | .node k cs, gaps, hready, hled, hformed => by
    have hgaps := hready hled.1
    refine ⟨⟨fun hk => ?_, plain_weaveAll cs gaps (fun _ => hgaps) hled.2 hformed.2⟩, trivial⟩
    obtain ⟨t, rfl, ht⟩ := hformed.1.2 hk
    intro c hc
    obtain rfl : c = .leaf t := by
      cases gaps with
      | nil => simpa [weaveAll, weave] using hc
      | cons g gaps =>
        obtain rfl := hgaps g rfl
        simpa [weaveAll, weave] using hc
    exact ⟨rfl, ht⟩

theorem plain_weaveAll {ready : Bool} : (os : List Outline) → (gaps : Gaps) → (ready = true → gaps.Ready) →
    LedAll ready os → EveryAll Grammar.Formed os → Tree.EachAll Tree.Plain (weaveAll os gaps).1
  | [], _, _, _, _ => trivial
  | o :: os, gaps, hready, hled, hformed =>
    Tree.eachAll_append.mpr ⟨plain_weave o gaps hready hled.1 hformed.1,
      plain_weaveAll os _ (fun hgap => ready_weave_gap hgap gaps) hled.2 hformed.2⟩

end

end Outline

theorem plain_parse {t : Text} (h : (parse t).faults = []) : (parse t).tree.Each Tree.Plain := by
  refine ⟨nofun, Tree.eachAll_append.mpr ⟨?_, Outline.eachAll_leaves _ _⟩⟩
  exact @Outline.plain_weaveAll false _ _ nofun (Grammar.led_outline _)
    (Grammar.formed_outline (outline_of_faultless h))

end Lintel
