import Mathlib.Data.List.Forall2
import Lintel.Proofs.Runs

namespace Lintel

/-- A token and what a tree shows of it: a name may be shown as the keyword that it spells. -/
def Token.Shows (t u : Token) : Prop :=
  u.text = t.text ∧
    (u.kind = t.kind ∨ t.kind = .ident ∧ Kind.contextualWord? t.text = some u.kind)

theorem Token.Shows.refl (t : Token) : t.Shows t :=
  ⟨rfl, .inl rfl⟩

namespace Grammar

def View.Spells (v : View) (k : Kind) : Prop :=
  v.kindAt 0 = .ident ∧ Kind.contextualWord? (v.textAt 0) = some k

theorem View.spells_of_isName {v : View} {w : String} {k : Kind} (h : v.isName 0 w = true)
    (hk : Kind.contextualWord? w.toList = some k) : v.Spells k := by
  simp only [isName, Bool.and_eq_true, beq_iff_eq] at h
  exact ⟨h.1, h.2 ▸ hk⟩

namespace State

def Accounts (s t : State) : Prop :=
  ∃ items tokens, s.rest = items ++ t.rest ∧ t.taken = s.taken + items.length ∧
    t.shown = s.shown ++ tokens ∧ List.Forall₂ Token.Shows (items.map (·.toToken)) tokens

theorem Accounts.of_same {s t : State} (hr : t.rest = s.rest) (ht : t.taken = s.taken)
    (hs : t.shown = s.shown) : s.Accounts t :=
  ⟨[], [], by simp [hr], by simp [ht], by simp [hs], .nil⟩

theorem accounts_take (s : State) : s.Accounts s.take := by
  unfold take
  split
  · exact .of_same rfl rfl rfl
  · rename_i i rest hr
    exact ⟨[i], [i.toToken], hr, rfl, shown_push _ _, .cons (.refl _) .nil⟩

theorem accounts_takeAs {k : Kind} {s : State} (h : s.Spells k) : s.Accounts (s.takeAs k) := by
  unfold takeAs
  split
  · exact .of_same rfl rfl rfl
  · rename_i i rest hr
    simp only [View.Spells, View.kindAt, View.textAt, hr, List.getElem?_cons_zero, Option.elim] at h
    exact ⟨[i], [⟨k, i.text⟩], hr, rfl, shown_push _ _, .cons ⟨rfl, .inr h⟩ .nil⟩

theorem steady_accounts : Steady (fun k v => v.Spells k) Accounts where
  refl s := .of_same rfl rfl rfl
  trans := by
    rintro s t u ⟨is, ts, hr, ht, hs, hf⟩ ⟨is', ts', hr', ht', hs', hf'⟩
    refine ⟨is ++ is', ts ++ ts', by simp [hr, hr'], by simp [ht, ht']; omega, by simp [hs, hs'], ?_⟩
    rw [List.map_append]
    exact List.rel_append hf hf'
  take := accounts_take
  takeAs := accounts_takeAs
  complain f s := .of_same rfl rfl rfl
  enclose := by
    rintro s f ⟨is, ts, hr, ht, hs, hf⟩
    refine ⟨is, ts, hr, ht, ?_, hf⟩
    rw [shown_enclose, hs]
    simp [shown, Outline.tokensAll]
  wrap k s := .of_same rfl rfl (shown_wrap k s)
  inQuery := by
    rintro s t ⟨is, ts, hr, ht, hs, hf⟩
    exact ⟨is, ts, hr, ht, hs, hf⟩

end State

def Cond.word? : Cond → Option String
  | word w => some w
  | and c d => c.word?.or d.word?
  | _ => none

theorem Cond.isName_of_word? {c : Cond} {w : String} (h : c.word? = some w) {v : View}
    (hv : c.holds v = true) : v.isName 0 w = true := by
  induction c with
  | word w' =>
    cases h
    exact hv
  | and c d ihc ihd =>
    simp only [word?, Option.or_eq_some_iff] at h
    simp only [holds, Bool.and_eq_true] at hv
    obtain h | ⟨-, h⟩ := h
    · exact ihc h hv.1
    · exact ihd h hv.2
  | _ => simp [word?] at h

def Symbol.word? : Symbol → Option String
  | .query => some "from"
  | _ => none

def View.Next (word : Option String) (v : View) : Prop :=
  ∀ w ∈ word, v.isName 0 w = true

def Action.spelled (word : Option String) : Rule → Bool
  | .takeAs k => word.any (fun w => Kind.contextualWord? w.toList == some k)
  | .seq a b => a.spelled word && b.spelled none
  | .scope a => a.spelled word
  | .wrap _ a => a.spelled word
  | .branch c a b => a.spelled (c.word?.or word) && b.spelled word
  | .loop c a => a.spelled c.word?
  | .commas _ c a => a.spelled c.word?
  | .progress a => a.spelled word
  | .inQuery a => a.spelled word
  | .call g => g.word?.all (fun w => word == some w)
  | .skip | .take | .complain _ => true

theorem Action.guarded_of_spelled {a : Rule} {word : Option String} {P : View → Prop}
    (hP : ∀ v, P v → v.Next word) (h : a.spelled word = true) :
    a.Guarded (fun k v => v.Spells k) (fun g => View.Next g.word?) P := by
  induction a generalizing word P with
  | skip => trivial
  | take => trivial
  | complain f => trivial
  | takeAs k =>
    intro v hv
    cases word with
    | none => simp [spelled] at h
    | some w =>
      simp only [spelled, Option.any_some, beq_iff_eq] at h
      exact View.spells_of_isName (hP v hv w rfl) h
  | seq a b iha ihb =>
    simp only [spelled, Bool.and_eq_true] at h
    exact ⟨iha hP h.1, ihb (by simp [View.Next]) h.2⟩
  | scope a ih => exact ih hP h
  | wrap k a ih => exact ih hP h
  | branch c a b iha ihb =>
    simp only [spelled, Bool.and_eq_true] at h
    refine ⟨iha ?_ h.1, ihb hP h.2⟩
    rintro v ⟨hv, hc⟩ w hw
    obtain hw | ⟨-, hw⟩ := Option.or_eq_some_iff.mp hw
    · exact Cond.isName_of_word? hw hc
    · exact hP v hv w hw
  | loop c a ih => exact ih (fun v hv w hw => Cond.isName_of_word? hw hv) h
  | commas strict c a ih => exact ih (fun v hv w hw => Cond.isName_of_word? hw hv) h
  | progress a ih => exact ih hP h
  | inQuery a ih =>
    refine ih ?_ h
    rintro v ⟨q, hq⟩ w hw
    exact hP _ hq w hw
  | call g =>
    intro v hv w hw
    simp only [spelled, Option.all_eq_true, beq_iff_eq] at h
    exact hP v hv w (h w hw)

theorem rule_guarded (g : Symbol) :
    (rule g).Guarded (fun k v => v.Spells k) (fun g => View.Next g.word?) (View.Next g.word?) := by
  have hspelled {a : Rule} {P : View → Prop} (h : a.spelled none = true) :
      a.Guarded (fun k v => v.Spells k) (fun g => View.Next g.word?) P :=
    Action.guarded_of_spelled (by simp [View.Next]) h
  cases g with
  | assignment =>
    refine ⟨hspelled rfl, ?_, hspelled rfl⟩
    rintro v ⟨-, hv⟩ w hw
    cases hw
    simp only [Cond.holds, View.startsQuery, Bool.and_eq_true] at hv
    exact hv.1
  | query => exact Action.guarded_of_spelled (fun v hv => hv) rfl
  | _ => exact hspelled rfl

theorem accounts_runNamed (n : Nat) (g : Symbol) (s : State) (h : s.Next g.word?) :
    s.Accounts (Action.runNamed rule n g s) := by
  induction n generalizing g s with
  | zero => exact State.steady_accounts.refl s
  | succ n ih => exact (rule_guarded g).run State.steady_accounts (fun g s hs => ih g s hs) h

theorem rest_outline (items : List Item) :
    (Action.runNamed rule (depth items) .compilationUnit { rest := items }).rest = [] := by
  rw [depth]
  exact rest_runNamed_compilationUnit _ _

theorem shows_outline (items : List Item) :
    List.Forall₂ Token.Shows (items.map (·.toToken)) (Outline.tokensAll (outline items).1) := by
  obtain ⟨is, ts, hr, -, hs, hf⟩ := accounts_runNamed (depth items) .compilationUnit
    { rest := items } (by simp [View.Next, Symbol.word?])
  rw [rest_outline, List.append_nil] at hr
  rw [← hr] at hf
  have hshown : Outline.tokensAll (outline items).1 = ts := hs
  rwa [hshown]

end Grammar

end Lintel
