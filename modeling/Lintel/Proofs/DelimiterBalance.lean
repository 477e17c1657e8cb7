import Lintel.Proofs.FaultlessText
import Lintel.Proofs.KeywordFollowers
import Lintel.Proofs.ParsingEnds
import Lintel.Proofs.Trails

/-!
Delimiters in a text without faults. Whatever a construct opens it closes, and between the two only whole constructs
stand, so that the delimiters of a text are nested. There is one exception: the name of an operator may be any sign, and
so a delimiter as well.
-/

namespace Lintel

namespace Kind

def closer? : Kind → Option Kind
  | .lParen => some .rParen
  | .lBracket => some .rBracket
  | .lBrace => some .rBrace
  | _ => none

def isCloser (k : Kind) : Bool :=
  k matches .rParen | .rBracket | .rBrace

/-- Each closing delimiter is the one that is due, and none is due at the end. The one that is due next comes first. -/
def nests : List Kind → List Kind → Bool
  | due, [] => due.isEmpty
  | due, k :: ks =>
    match k.closer? with
    | some c => nests (c :: due) ks
    | none => if k.isCloser then due.head? == some k && nests due.tail ks else nests due ks

/-- Kinds without the names of operators. These stand right after the keyword and are no opening parenthesis; `named`
says that the keyword came right before. -/
def withoutNames : Bool → List Kind → List Kind
  | _, [] => []
  | named, k :: ks => if named && k != .lParen then withoutNames false ks else k :: withoutNames (k == .operatorKw) ks

def marks : List Kind :=
  [.lParen, .rParen, .lBracket, .rBracket, .lBrace, .rBrace, .operatorKw]

theorem of_not_mem_marks {k : Kind} (h : k ∉ marks) : k.closer? = none ∧ k.isCloser = false ∧
    (k == .operatorKw) = false := by
  refine ⟨?_, ?_, beq_false_of_ne ?_⟩
  · unfold closer?
    split
    case h_4 => rfl
    all_goals exact absurd (by decide) h
  · unfold isCloser
    split
    case h_4 => rfl
    all_goals exact absurd (by decide) h
  · rintro rfl
    exact h (by decide)

end Kind

namespace Grammar

def Closes (due : List Kind) (l : List Item) : Bool :=
  Kind.nests due (Kind.withoutNames false (l.map (·.kind)))

section Closes

variable {due : List Kind} {i : Item} {l : List Item}

theorem closes_other (hi : i.kind ∉ Kind.marks) : Closes due (i :: l) = Closes due l := by
  obtain ⟨hopen, hclose, hname⟩ := Kind.of_not_mem_marks hi
  simp [Closes, Kind.withoutNames, Kind.nests, hopen, hclose, hname]

theorem closes_opener {c : Kind} (hi : i.kind.closer? = some c) : Closes due (i :: l) = Closes (c :: due) l := by
  have hname : (i.kind == .operatorKw) = false := by
    apply beq_false_of_ne
    intro hk
    rw [hk] at hi
    cases hi
  simp [Closes, Kind.withoutNames, Kind.nests, hi, hname]

theorem closes_closer (hi : i.kind.isCloser = true) : Closes (i.kind :: due) (i :: l) = Closes due l := by
  have hk : i.kind.closer? = none ∧ (i.kind == .operatorKw) = false := by
    generalize i.kind = k at hi
    unfold Kind.isCloser at hi
    split at hi
    case h_4 => cases hi
    all_goals exact ⟨rfl, rfl⟩
  simp [Closes, Kind.withoutNames, Kind.nests, hk.1, hk.2, hi]

theorem closes_operator (hi : i.kind = .operatorKw) :
    Closes due (i :: l) = Closes due (if headKind l = .lParen then l else l.tail) := by
  have hop : Kind.closer? .operatorKw = none ∧ Kind.isCloser .operatorKw = false := ⟨rfl, rfl⟩
  cases l with
  | nil => simp [Closes, Kind.withoutNames, Kind.nests, hi, hop, headKind]
  | cons j l =>
    by_cases hj : j.kind = .lParen
    · simp [Closes, Kind.withoutNames, Kind.nests, hi, hop, headKind, hj]
    · simp [Closes, Kind.withoutNames, Kind.nests, hi, hop, headKind, hj]

end Closes

def balance : Trail (List Kind) where
  Kept p s t q := ∀ due, Closes (p ++ due) s.rest = Closes (q ++ due) t.rest
  refl _ _ _ := rfl
  trans h h' due := (h due).trans (h' due)
  enclose h := h
  inQuery h := h

inductive Tally where
  | unknown
  | never
  | here (known : Know) (due : List Kind)

namespace Tally

def andThen (f : Know → List Kind → Tally) : Tally → Tally
  | here K p => f K p
  | x => x

def join : Tally → Tally → Tally
  | never, x => x
  | x, never => x
  | here K p, here L q => if p = q then here (K.join L) p else unknown
  | _, _ => unknown

def leaves (q : List Kind) : Tally → Bool
  | unknown => false
  | never => true
  | here _ p => p = q

end Tally

section Tally

variable {σ : Type}

def dueAfter? (K : Know) (p : List Kind) : Option (List Kind) :=
  match Kind.marks.find? K.first with
  | none => some p
  | some k =>
    if K.ensures (· == k) then
      match k.closer? with
      | some c => some (c :: p)
      | none => if k.isCloser && p.head? == some k then some p.tail else none
    else none

variable (entry : σ → Option Kind)

def tally : Action σ → Know → List Kind → Tally
  | .skip, K, p => .here K p
  | .take, K, p | .takeAs _, K, p => (dueAfter? K p).elim .unknown (.here (Action.after (.take : Action σ) K))
  | .complain _, _, _ => .never
  | .seq a a', K, p => (tally a K p).andThen (tally a')
  | .scope a, K, p | .wrap _ a, K, p | .progress a, K, p | .inQuery a, K, p => tally a K p
  | .branch c a a', K, p => (tally a (c.learn true K) p).join (tally a' (c.learn false K) p)
  | .loop c a, _, p | .commas _ c a, _, p => if (tally a (c.learn true {}) p).leaves p then .here {} p else .unknown
  | .call g, K, p => if (entry g).all (fun k => K.ensures (· == k)) then .here {} p else .unknown

def Tally.Holds (call : σ → State → State) (P : View → Prop) (p : List Kind) (a : Action σ) : Tally → Prop
  | unknown => True
  | never => ∀ Q q, balance.Leaves call P p a Q q
  | here K q => balance.Leaves call P p a K.Holds q

end Tally

namespace balance

open Trail

variable {σ : Type} {call : σ → State → State} {P Q : View → Prop} {p q : List Kind} {a : Action σ}

theorem mono {P' Q' : View → Prop} (h : balance.Leaves call P p a Q q) (hP : ∀ v, P' v → P v) (hQ : ∀ v, Q v → Q' v) :
    balance.Leaves call P' p a Q' q := by
  intro s hs hquiet
  obtain ⟨hkept, hv⟩ := h s (hP _ hs) hquiet
  exact ⟨hkept, hQ _ hv⟩

theorem frame (h : balance.Leaves call P p a Q q) (r : List Kind) : balance.Leaves call P (p ++ r) a Q (q ++ r) := by
  intro s hs hquiet
  obtain ⟨hkept, hv⟩ := h s hs hquiet
  refine ⟨fun due => ?_, hv⟩
  rw [List.append_assoc, List.append_assoc]
  exact hkept (r ++ due)

theorem regroup {a a' a'' : Action σ} (h : balance.Leaves call P p (.seq a (.seq a' a'')) Q q) :
    balance.Leaves call P p (.seq (.seq a a') a'') Q q :=
  h

theorem wrap {k : Kind} (h : balance.Leaves call P p a Q q) : balance.Leaves call P p (.wrap k a) Q q :=
  h

theorem of_tail (ha : ∀ s, (a.run call s).toView = { s.toView with rest := s.rest.tail })
    (hp : ∀ v, P v → ∀ due, Closes (p ++ due) v.rest = Closes (q ++ due) v.rest.tail)
    (hQ : ∀ v, P v → Q { v with rest := v.rest.tail }) : balance.Leaves call P p a Q q := by
  intro s hs _
  rw [ha]
  refine ⟨fun due => ?_, hQ _ hs⟩
  rw [ha]
  exact hp _ hs due

theorem view_take (s : State) : s.take.toView = { s.toView with rest := s.rest.tail } := by
  unfold State.take
  split
  · rename_i hr
    rw [hr, List.tail_nil, ← hr]
  · rename_i hr
    rw [hr]
    rfl

theorem view_takeAs (k : Kind) (s : State) : (s.takeAs k).toView = { s.toView with rest := s.rest.tail } := by
  unfold State.takeAs
  split
  · rename_i hr
    rw [hr, List.tail_nil, ← hr]
  · rename_i hr
    rw [hr]
    rfl

theorem closes_tail {l : List Item} (h : headKind l ∉ Kind.marks) (due : List Kind) :
    Closes due l = Closes due l.tail := by
  cases l with
  | nil => rfl
  | cons i l => exact closes_other h

theorem take (hp : ∀ v, P v → v.kindAt 0 ∉ Kind.marks) (hQ : ∀ v, P v → Q { v with rest := v.rest.tail }) :
    balance.Leaves call P p .take Q p := by
  refine of_tail view_take (fun v hv due => ?_) hQ
  have hk := hp v hv
  rw [View.kindAt_zero] at hk
  exact closes_tail hk _

theorem closes_of_dueAfter? {K : Know} {v : View} (hK : K.Holds v) (h : dueAfter? K p = some q) (due : List Kind) :
    Closes (p ++ due) v.rest = Closes (q ++ due) v.rest.tail := by
  unfold dueAfter? at h
  split at h
  · rename_i hnone
    cases h
    apply closes_tail
    intro hmem
    rw [← View.kindAt_zero] at hmem
    exact List.find?_eq_none.mp hnone _ hmem hK.first
  · rename_i k hsome
    split at h
    · rename_i hk
      have hhead : headKind v.rest = k := by
        rw [← View.kindAt_zero]
        exact beq_iff_eq.mp (hK.ensures hk)
      have hne : k ≠ .eof := by
        rintro rfl
        exact absurd (List.mem_of_find?_eq_some hsome) (by decide)
      obtain ⟨i, l, hr, rfl⟩ := exists_cons_of_headKind hhead hne
      rw [hr, List.tail_cons]
      split at h
      · rename_i c hc
        cases h
        exact closes_opener hc
      · split at h
        · rename_i hclose
          rw [Bool.and_eq_true, beq_iff_eq] at hclose
          obtain ⟨rest, rfl⟩ := List.head?_eq_some_iff.mp hclose.2
          cases h
          exact closes_closer hclose.1
        · cases h
    · cases h

end balance

section Sound

variable {σ : Type} {entry : σ → Option Kind} {call : σ → State → State} {P : View → Prop} {p q : List Kind}
    {a : Action σ}

theorem Tally.Holds.of_imp {a' : Action σ} {P' : View → Prop} {p' : List Kind} {x : Tally} (h : x.Holds call P p a)
    (himp : ∀ Q q, balance.Leaves call P p a Q q → balance.Leaves call P' p' a' Q q) : x.Holds call P' p' a' := by
  cases x with
  | unknown => trivial
  | never => exact fun Q q => himp Q q (h Q q)
  | here K q => exact himp _ _ h

theorem Tally.Holds.leaves {x : Tally} (h : x.Holds call P p a) (hq : x.leaves q = true) :
    balance.Leaves call P p a (fun _ => True) q := by
  cases x with
  | unknown => cases hq
  | never => exact h _ _
  | here K r =>
    obtain rfl : r = q := of_decide_eq_true hq
    exact balance.mono h (fun _ hv => hv) (fun _ _ => trivial)

theorem Tally.Holds.join {a' : Action σ} {c : Cond} {x x' : Tally}
    (h : x.Holds call (fun v => P v ∧ c.holds v = true) p a)
    (h' : x'.Holds call (fun v => P v ∧ c.holds v = false) p a') : (x.join x').Holds call P p (.branch c a a') := by
  match x, x' with
  | .never, .unknown => trivial
  | .never, .never => exact fun Q q => .branch (h Q q) (h' Q q)
  | .never, .here K q => exact .branch (h _ _) h'
  | .unknown, .never => trivial
  | .here K q, .never => exact .branch h (h' _ _)
  | .here K q, .here L r =>
    rw [Tally.join]
    split
    · rename_i hqr
      subst hqr
      simp only [Holds] at h h'
      exact .branch (balance.mono h (fun _ hv => hv) (fun _ hv => hv.join_left))
        (balance.mono h' (fun _ hv => hv) (fun _ hv => hv.join_right))
    · trivial
  | .unknown, .unknown => trivial
  | .unknown, .here _ _ => trivial
  | .here _ _, .unknown => trivial

def known (entry : Option Kind) : Know :=
  { first := fun k => entry.all (k == ·) }

theorem tally_holds (hadv : ∀ g (s : State), s.Advances (call g s))
    (hcall : ∀ g, balance.Leaves call (known (entry g)).Holds [] (.call g) (fun _ => True) []) (a : Action σ) (K : Know)
    (p : List Kind) : (tally entry a K p).Holds call K.Holds p a := by
  induction a generalizing K p with
  | skip => exact .skip
  | take =>
    rw [tally]
    cases hdue : dueAfter? K p with
    | none => trivial
    | some q =>
      exact balance.of_tail balance.view_take (fun v hv => balance.closes_of_dueAfter? hv hdue)
        (fun v hv => Watch.Know.holds_tail hv)
  | takeAs k =>
    rw [tally]
    cases hdue : dueAfter? K p with
    | none => trivial
    | some q =>
      exact balance.of_tail (balance.view_takeAs k) (fun v hv => balance.closes_of_dueAfter? hv hdue)
        (fun v hv => Watch.Know.holds_tail hv)
  | complain f => exact fun Q q => .complain
  | seq a a' iha iha' =>
    rw [tally]
    have ha := iha K p
    cases hx : tally entry a K p with
    | unknown => trivial
    | never =>
      rw [hx] at ha
      exact fun Q q => .seq hadv (ha (fun _ => False) []) (fun s hs => hs.elim)
    | here L q =>
      rw [hx] at ha
      exact (iha' L q).of_imp (fun Q r h => .seq hadv ha h)
  | scope a ih => exact (ih K p).of_imp (fun _ _ => .scope)
  | wrap k a ih => exact (ih K p).of_imp (fun _ _ => balance.wrap)
  | branch c a a' iha iha' =>
    refine .join ((iha _ p).of_imp fun Q q h => ?_) ((iha' _ p).of_imp fun Q q h => ?_)
    · exact balance.mono h (fun v hv => Cond.learn_holds hv.2 hv.1) (fun _ hv => hv)
    · exact balance.mono h (fun v hv => Cond.learn_holds hv.2 hv.1) (fun _ hv => hv)
  | loop c a ih =>
    rw [tally]
    split
    · rename_i hround
      refine balance.mono (.loop hadv (balance.mono ((ih _ p).leaves hround) ?_ (fun _ hv => hv)))
        (fun _ _ => trivial) (fun v _ => Know.holds_nothing v)
      exact fun v hv => Cond.learn_holds hv.2 (Know.holds_nothing v)
    · trivial
  | commas strict c a ih =>
    rw [tally]
    split
    · rename_i hround
      refine balance.mono (.commas hadv (balance.mono ((ih _ p).leaves hround) ?_ (fun _ hv => hv)) ?_ (fun _ _ => rfl))
        (fun _ _ => trivial) (fun v _ => Know.holds_nothing v)
      · exact fun v hv => Cond.learn_holds hv (Know.holds_nothing v)
      · exact balance.take (fun v hv => by rw [hv]; decide) (fun _ _ => trivial)
    · trivial
  | progress a ih => exact (ih K p).of_imp (fun _ _ => .progress hadv)
  | inQuery a ih =>
    have hview : ∀ {K : Know} {v : View} (n : Nat), K.Holds { v with queries := n } → K.Holds v :=
      fun _ h => ⟨h.first, h.second, h.some⟩
    have ha := ih K p
    rw [tally]
    cases hx : tally entry a K p with
    | unknown => trivial
    | never =>
      rw [hx] at ha
      refine fun Q q => .inQuery (balance.mono (ha _ q) ?_ (fun _ hv => hv))
      rintro v ⟨n, hv⟩
      exact hview n hv
    | here L q =>
      rw [hx] at ha
      refine .inQuery (balance.mono ha ?_ (fun v hv n => ⟨hv.first, hv.second, hv.some⟩))
      rintro v ⟨n, hv⟩
      exact hview n hv
  | call g =>
    rw [tally]
    split
    · rename_i hentry
      refine balance.mono (balance.frame (hcall g) p) (fun v hv => ⟨?_, rfl, by simp [known]⟩)
        (fun v _ => Know.holds_nothing v)
      cases hg : entry g with
      | none => rfl
      | some k =>
        rw [hg] at hentry
        exact hv.ensures hentry
    · trivial

end Sound

def Symbol.opening : Symbol → Option Kind
  | .usingDirective => some .usingKw
  | .namespaceDecl => some .namespaceKw
  | .typeParameterList => some .lt
  | .creation => some .newKw
  | .query => some .ident
  | _ => none

abbrev Neutral (call : Symbol → State → State) (P : View → Prop) (a : Rule) : Prop :=
  balance.Leaves call P [] a (fun _ => True) []

structure Balanced (call : Symbol → State → State) : Prop where
  advances : ∀ g (s : State), s.Advances (call g s)
  type : ∀ s : State, s.Quiet (call (.type false) s) → typeEnd? s.rest = some (call (.type false) s).rest
  kept : ∀ g : Symbol, Neutral call (known g.opening).Holds (.call g)

namespace Balanced

open Trail

variable {call : Symbol → State → State} (h : Balanced call) {P : View → Prop} {p q : List Kind}

include h

theorem plain (a : Rule) (ha : (tally Symbol.opening a {} p).leaves q = true) :
    balance.Leaves call P p a (fun _ => True) q :=
  balance.mono ((tally_holds h.advances h.kept a {} p).leaves ha) (fun v _ => Know.holds_nothing v) (fun _ hv => hv)

theorem guarded (c : Cond) (a : Rule) (ha : (tally Symbol.opening a (c.learn true {}) p).leaves q = true) :
    balance.Leaves call (fun v => P v ∧ c.holds v = true) p a (fun _ => True) q :=
  balance.mono ((tally_holds h.advances h.kept a _ p).leaves ha)
    (fun v hv => Cond.learn_holds hv.2 (Know.holds_nothing v)) (fun _ hv => hv)

theorem append {a a' : Rule} (ha : Neutral call P a) (ha' : Neutral call (fun _ => True) a') :
    Neutral call P (a ++ a') :=
  .seq h.advances ha ha'

theorem leaves_type {k : Kind} (hP : ∀ v r, P v → typeEnd? v.rest = some r → headKind r = k) :
    balance.Leaves call P [] Rule.declaredType (fun v => headKind v.rest = k) [] := by
  intro s hs hquiet
  exact ⟨(h.kept (.type false) s ⟨rfl, rfl, by simp [known]⟩ hquiet).1, hP _ _ hs (h.type s hquiet)⟩

theorem neutral_typeTake {k : Kind} (hk : k ∉ Kind.marks)
    (hP : ∀ v r, P v → typeEnd? v.rest = some r → headKind r = k) :
    Neutral call P (Rule.declaredType ++ .take) := by
  refine .seq h.advances (h.leaves_type hP) (balance.take (fun v hv => ?_) ?_)
  · rw [View.kindAt_zero, hv]
    exact hk
  · exact fun _ _ => trivial

theorem neutral_sign {f : View → Bool} (hP : ∀ v, P v → v.kindAt 0 ∉ Kind.marks)
    (hf : ∀ v, f v = true → v.kindAt 1 ∉ Kind.marks) : Neutral call P (Rule.when (.look f) .take ++ .take) := by
  refine .seq (Q := fun v => v.kindAt 0 ∉ Kind.marks) h.advances (.branch (balance.take ?_ ?_) ?_)
    (balance.take (fun _ hv => hv) (fun _ _ => trivial))
  · exact fun v hv => hP v hv.1
  · intro v hv
    rw [kindAt_tail]
    exact hf v hv.2
  · exact balance.mono .skip (fun v hv => hP v hv.1) (fun _ hv => hv)

omit h in
theorem not_mem_of_precedence? {v : View} {n : Nat} (hv : v.precedence? = some n) : v.kindAt 0 ∉ Kind.marks := by
  intro hmem
  have hnone : ∀ k ∈ Kind.marks, v.kindAt 0 = k → v.precedence? = none := by
    intro k hk hkind
    simp only [Kind.marks, List.mem_cons, List.not_mem_nil, or_false] at hk
    obtain rfl | rfl | rfl | rfl | rfl | rfl | rfl := hk
    all_goals simp [View.precedence?, View.startsShiftRight, View.startsShiftAssign, hkind]
  rw [hnone _ hmem rfl] at hv
  cases hv

theorem neutral_binary (level : Nat) : Neutral call P (Rule.binary level) := by
  have hround : ∀ {P : View → Prop}, Neutral call P (Rule.choose
      (([(Rule.sees [.isKw], .wrap .isExpr (.take ++ .call .pattern)),
        (Rule.sees [.asKw], .wrap .asExpr (.take ++ .call (.type true)))] : List (Cond × Rule)) ++
        [1, 2, 3, 4, 5, 6, 7, 8, 9, 10].map Rule.binaryLevel) .skip) := by
    refine .choose (fun c hc => ?_) (h.plain _ rfl)
    obtain hc | hc := List.mem_append.mp hc
    · simp only [List.mem_cons, List.not_mem_nil, or_false] at hc
      obtain rfl | rfl := hc
      · exact h.guarded _ _ rfl
      · exact h.guarded _ _ rfl
    · obtain ⟨n, -, rfl⟩ := List.mem_map.mp hc
      refine balance.wrap (h.append (h.neutral_sign ?_ ?_) (h.plain _ rfl))
      · intro v hv
        exact not_mem_of_precedence? (by simpa [Rule.binaryLevel, Cond.holds] using hv.2)
      · intro v hv
        rw [((CallsKept.startsShiftRight_iff v).mp hv).2.1]
        decide
  exact .scope (h.append (h.plain (.call .unary) rfl) (.loop h.advances hround))

theorem neutral_assignment : Neutral call P Rule.assignment := by
  have hsign : Neutral call (fun v => True ∧ (Cond.or (.ahead 0 Rule.isAssignmentSign) Rule.shiftAssign).holds v = true)
      (Rule.when Rule.shiftAssign .take ++ .take) := by
    apply h.neutral_sign
    · rintro v ⟨-, hv⟩ hmem
      simp only [Cond.holds, Bool.or_eq_true, Rule.shiftAssign, CallsKept.startsShiftAssign_iff] at hv
      obtain hv | hv := hv
      · have hall : ∀ k ∈ Kind.marks, Rule.isAssignmentSign k = false := by decide
        rw [hall _ hmem] at hv
        cases hv
      · rw [hv.1] at hmem
        exact absurd hmem (by decide)
    · intro v hv
      rw [((CallsKept.startsShiftAssign_iff v).mp hv).2.1]
      decide
  have hquery : Neutral call (fun v => P v ∧ (Cond.look View.startsQuery).holds v = true) (.call .query) := by
    refine balance.mono (h.kept .query) (fun v hv => ?_) (fun _ hv => hv)
    have hname := hv.2
    simp only [Cond.holds, View.startsQuery, View.isName, Bool.and_eq_true, beq_iff_eq] at hname
    exact ⟨by rw [hname.1.1]; rfl, rfl, by simp [known]⟩
  refine .branch (h.guarded _ _ rfl) (.branch (balance.mono hquery (fun _ hv => ⟨hv.1.1, hv.2⟩) (fun _ hv => hv)) ?_)
  refine .scope (h.append (h.plain (.call .conditional) rfl) (.branch ?_ (h.plain _ rfl)))
  exact balance.wrap (h.append hsign (h.plain _ rfl))

theorem neutral_argument : Neutral call P Rule.argument := by
  have hdeclared : ∀ {P : View → Prop}, Neutral call
      (fun v => P v ∧ (Cond.look View.startsArgumentDeclaration).holds v = true) (Rule.declaredType ++ .take) := by
    intro P
    refine h.neutral_typeTake (k := .ident) (by decide) ?_
    rintro v r ⟨-, hv⟩ hr
    have hafter : v.afterType 0 = some r := hr
    simp only [Cond.holds, View.startsArgumentDeclaration, hafter, Option.any_some, Bool.and_eq_true, beq_iff_eq] at hv
    exact hv.1
  have hvalue : ∀ {P : View → Prop}, Neutral call P Rule.expression := h.plain _ rfl
  exact .scope (balance.wrap (h.append (h.plain _ rfl) (.branch (h.append (h.guarded _ .take rfl)
    (.branch hdeclared hvalue)) hvalue)))

theorem neutral_arguments {k o c : Kind} (hopen : (tally Symbol.opening (Rule.expect o) {} []).leaves [c] = true)
    (hclose : (tally Symbol.opening (Rule.expect c) {} [c]).leaves [] = true) :
    Neutral call P (Rule.node k (Rule.expect o ++ Rule.list [c] Rule.argument ++ Rule.expect c)) := by
  refine .scope (balance.wrap (.seq h.advances (.seq h.advances (h.plain _ hopen) (.commas h.advances
    (balance.frame h.neutral_argument [c]) (balance.take ?_ ?_) (fun _ _ => rfl))) (h.plain _ hclose)))
  · intro v hv
    rw [hv]
    decide
  · exact fun _ _ => trivial

omit h in
theorem neutral_name : Neutral call (fun v => headKind v.rest = .operatorKw)
    (.take ++ Rule.except (Rule.sees [.lParen]) .take) := by
  intro s hs hquiet
  refine ⟨fun due => ?_, trivial⟩
  obtain ⟨i, l, hr, hi⟩ := exists_cons_of_headKind hs (by simp)
  have htake : s.take.rest = l := by rw [State.rest_take, hr, List.tail_cons]
  have hrun : Action.run call (.take ++ Rule.except (Rule.sees [.lParen]) .take : Rule) s =
      if (Rule.sees [.lParen]).holds s.take.toView then s.take else s.take.take := rfl
  rw [hrun, holds_sees, htake, hr, closes_operator hi]
  by_cases hl : headKind l = .lParen
  · simp [hl, htake]
  · simp [hl, hr, State.rest_take]

theorem neutral_target : Neutral call P (Rule.expect .operatorKw ++ Rule.declaredType) := by
  refine fun s _ hquiet => ⟨fun due => ?_, trivial⟩
  have hsees : (Rule.sees [.operatorKw]).holds s.toView = true := by
    by_contra hc
    obtain ⟨hq, -⟩ := ((Rule.expect .operatorKw).advances h.advances s).quiet
      (Rule.declaredType.advances h.advances _) hquiet
    rw [Rule.expect, Action.run, if_neg hc] at hq
    simp [State.Quiet, Action.run, State.complain] at hq
  obtain ⟨i, l, hr, hi⟩ := exists_cons_of_headKind (k := .operatorKw) (by simpa [holds_sees] using hsees) (by simp)
  have htake : s.take.rest = l := by rw [State.rest_take, hr, List.tail_cons]
  have hrun : Action.run call (Rule.expect .operatorKw ++ Rule.declaredType : Rule) s = call (.type false) s.take := by
    show call (.type false) (if _ then _ else _) = _
    rw [if_pos hsees]
    rfl
  rw [hrun] at hquiet ⊢
  have hq : s.take.Quiet (call (.type false) s.take) := by
    rw [State.Quiet, State.complaints_take]
    exact hquiet
  -- A type starts with no delimiter, so that it does not matter whether its first word is taken for a name.
  have hmarks : headKind l ∉ Kind.marks := by
    have hword : ∀ k ∈ Kind.marks, k ≠ .ident ∧ k.isPredefinedType = false := by decide
    intro hmem
    obtain hident | htype := headKind_of_typeEnd? (htake ▸ h.type _ hq)
    · exact (hword _ hmem).1 hident
    · rw [(hword _ hmem).2] at htype
      cases htype
  have hparen : headKind l ≠ .lParen := by
    intro hl
    rw [hl] at hmarks
    exact hmarks (by decide)
  calc Closes due s.rest = Closes due l.tail := by rw [hr, closes_operator hi, if_neg hparen]
    _ = Closes due s.take.rest := by rw [htake, balance.closes_tail hmarks]
    _ = Closes due (call (.type false) s.take).rest :=
      (h.kept (.type false) s.take ⟨rfl, rfl, by simp [known]⟩ hq).1 due

theorem neutral_typeParameters : Neutral call P Rule.typeParametersFollow := by
  refine .branch (balance.mono (h.kept .typeParameterList) ?_ (fun _ hv => hv)) (h.plain _ rfl)
  rintro v ⟨-, hv⟩
  have hlt : v.kindAt 0 = .lt := by simpa [Rule.sees, Cond.holds] using hv
  exact ⟨by rw [hlt]; rfl, rfl, by simp [known]⟩

theorem neutral_indexer : Neutral call (fun v => P v ∧ (Rule.isTyped .indexer).holds v = true)
    (Rule.declaredType ++ .take ++ .call .bracketedParameterList ++ Rule.propertyBody) := by
  refine h.append (h.append (h.neutral_typeTake (k := .thisKw) (by decide) ?_) (h.plain _ rfl)) (h.plain _ rfl)
  rintro v r ⟨-, hv⟩ hr
  exact (headKind_of_typedMember hr).1 (by simpa [Rule.isTyped, Cond.holds] using hv)

theorem neutral_operator : Neutral call (fun v => P v ∧ (Rule.isTyped .operator).holds v = true)
    (Rule.declaredType ++ .take ++ Rule.except (Rule.sees [.lParen]) .take ++ Rule.eat .gt ++ Rule.methodRest) := by
  have htype : balance.Leaves call (fun v => P v ∧ (Rule.isTyped .operator).holds v = true) [] Rule.declaredType
      (fun v => headKind v.rest = .operatorKw) [] := by
    apply h.leaves_type
    rintro v r ⟨-, hv⟩ hr
    exact (headKind_of_typedMember hr).2 (by simpa [Rule.isTyped, Cond.holds] using hv)
  have hname := balance.regroup (.seq h.advances htype neutral_name)
  exact h.append (h.append hname (h.plain _ rfl)) (h.plain _ rfl)

theorem neutral_conversion : Neutral call (fun v => P v ∧ (Rule.sees [.implicitKw, .explicitKw]).holds v = true)
    (.take ++ Rule.expect .operatorKw ++ Rule.declaredType ++ Rule.methodRest) :=
  h.append (balance.regroup (h.append (h.guarded _ .take rfl) h.neutral_target)) (h.plain _ rfl)

theorem neutral_typedMember : Neutral call P Rule.typedMember := by
  refine .choose (fun c hc => ?_) (h.plain _ rfl)
  simp only [List.mem_cons, List.not_mem_nil, or_false] at hc
  obtain rfl | rfl | rfl | rfl | rfl := hc
  · exact balance.wrap h.neutral_indexer
  · exact balance.wrap h.neutral_operator
  · exact balance.wrap (h.append (h.append (h.plain (_ ++ Rule.memberName) rfl) h.neutral_typeParameters)
      (h.plain _ rfl))
  all_goals exact h.plain _ rfl

theorem neutral_member : Neutral call P Rule.member := by
  refine .scope (h.append (h.plain _ rfl) (.choose (fun c hc => ?_) (h.plain _ rfl)))
  simp only [List.mem_cons, List.not_mem_nil, or_false] at hc
  obtain rfl | rfl | rfl | rfl | rfl | rfl | rfl | rfl | rfl | rfl := hc
  case inr.inr.inr.inr.inr.inr.inr.inl => exact balance.wrap h.neutral_conversion
  case inr.inr.inr.inr.inr.inr.inr.inr.inr => exact h.neutral_typedMember
  all_goals exact h.guarded _ _ (by decide +kernel)

end Balanced

theorem tally_rule : ∀ g ∈ Symbol.without [.assignment, .argumentList, .bracketedArgumentList, .member],
    (tally Symbol.opening (rule g) (known g.opening) []).leaves [] = true := by
  decide +kernel

theorem balanced (n : Nat) : Balanced (Action.runStrict rule n) := by
  induction n with
  | zero =>
    refine ⟨Action.advances_runStrict rule 0, fun s hq => rest_runStrict_type hq, fun g s _ hq => ?_⟩
    simp [State.Quiet, Action.run, Action.runStrict, State.complain] at hq
  | succ n ih =>
    refine ⟨Action.advances_runStrict rule (n + 1), fun s hq => rest_runStrict_type hq, fun g => ?_⟩
    show Neutral (Action.runStrict rule n) (known g.opening).Holds (rule g)
    have hrule : (tally Symbol.opening (rule g) (known g.opening) []).leaves [] = true →
        Neutral (Action.runStrict rule n) (known g.opening).Holds (rule g) :=
      (tally_holds ih.advances ih.kept (rule g) (known g.opening) []).leaves
    cases g with
    | assignment => exact ih.neutral_assignment
    | binary level => exact ih.neutral_binary level
    | argumentList => exact ih.neutral_arguments (by decide +kernel) (by decide +kernel)
    | bracketedArgumentList => exact ih.neutral_arguments (by decide +kernel) (by decide +kernel)
    | member => exact ih.neutral_member
    | type inExpression => cases inExpression <;> exact hrule (tally_rule _ (by decide))
    | _ => exact hrule (tally_rule _ (by decide))

theorem closes_items {items : List Item} (h : (outline items).2 = []) : Closes [] items = true := by
  have hkept := ((balanced (depth items)).kept .compilationUnit { rest := items } ⟨rfl, rfl, by simp [known]⟩
    (quiet_outline h)).1 []
  rw [Action.run, runStrict_outline h, rest_outline] at hkept
  exact hkept

end Grammar

def significantKinds (t : Text) : List Kind :=
  (((lex t).map (·.toToken)).filter (!·.isTrivia)).map (·.kind)

theorem significantKinds_eq (t : Text) : significantKinds t = (itemsOf t).map (·.kind) := by
  have hitems : (itemsOf t).map (·.kind) = ((itemsOf t).map (·.toToken)).map (·.kind) := by simp
  rw [hitems, itemsOf, Group.map_toToken_items, Group.map_token_split, significantKinds]

/-- In a text without faults the delimiters are nested, the names of operators aside. -/
theorem delimiters_nest (t : Text) (h : (parse t).faults = []) :
    Kind.nests [] (Kind.withoutNames false (significantKinds t)) = true := by
  rw [significantKinds_eq]
  exact Grammar.closes_items (outline_of_faultless h)

theorem readings_operatorName : (parse "class C{int operator[(){}}".toList).faults = [] ∧
    (parse "class C{int operator)(int a);}".toList).faults = [] ∧
    Kind.nests [] (significantKinds "class C{int operator)(int a);}".toList) = false := by
  decide +kernel

theorem delimiters_nest_bracketName : (parse "class C{int operator[(){}}".toList).faults = [] ∧
    Kind.nests [] (Kind.withoutNames false (significantKinds "class C{int operator[(){}}".toList)) = true := by
  have hfaults := readings_operatorName.1
  exact ⟨hfaults, delimiters_nest _ hfaults⟩

/-- The name of an operator may be a delimiter that nothing closes. -/
theorem not_nests_operatorName : (parse "class C{int operator)(int a);}".toList).faults = [] ∧
    Kind.nests [] (significantKinds "class C{int operator)(int a);}".toList) = false :=
  readings_operatorName.2

end Lintel
