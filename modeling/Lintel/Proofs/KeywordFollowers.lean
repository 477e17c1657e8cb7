import Lintel.Proofs.Followers

namespace Lintel.Grammar

open Watch

def wordKinds : List Kind :=
  Kind.reservedWords.map (·.2) ++
    ([.ident, .stringLiteral, .charLiteral, .intLiteral, .realLiteral, .error] : List Kind)

def callKinds : List Kind :=
  [.typeofKw, .sizeofKw, .checkedKw, .uncheckedKw, .nameofKw]

def calls : Watch where
  hot := callKinds
  sign k := k ∉ wordKinds
  signed f := wordKinds.all (fun k => !f k)
  sound := by
    intro f h k hk hmem
    have := List.all_eq_true.mp h k hmem
    simp [hk] at this

def Symbol.entry : Symbol → Option Entry
  | .usingDirective | .namespaceDecl | .typeParameterList | .creation => some { cool := true }
  | .parameterList => some { pending := true }
  | _ => some {}

theorem kindAt_tail (v : View) (n : Nat) : View.kindAt { v with rest := v.rest.tail } n = v.kindAt (n + 1) := by
  simp [View.kindAt, List.getElem?_tail]

structure CallsKept (call : Symbol → State → State) : Prop extends TypeRuns call where
  kept : ∀ g e, Symbol.entry g = some e →
    Tight calls call (e.known calls).Holds e.pending (.call g) (fun _ => True) false

namespace CallsKept

variable {call : Symbol → State → State} (h : CallsKept call)

include h

theorem forecast (a : Rule) (K : Know) (b : Bool) :
    (calls.forecast Symbol.entry a K b).Holds calls call K.Holds b a :=
  forecast_holds (by decide) h.advances h.kept a K b

theorem unguarded {P : View → Prop} (a : Rule)
    (ha : (calls.forecast Symbol.entry a {} false).settled = true) :
    Tight calls call P false a (fun _ => True) false :=
  ((h.forecast a {} false).tight ha).mono (fun v _ => Know.holds_nothing v) (fun _ hv => hv) id id

theorem guarded {P : View → Prop} (c : Cond) (a : Rule)
    (ha : (calls.forecast Symbol.entry a (c.learn true {}) false).settled = true) :
    Tight calls call (fun v => P v ∧ c.holds v = true) false a (fun _ => True) false :=
  ((h.forecast a _ false).tight ha).mono (fun v hv => Cond.learn_holds hv.2 (Know.holds_nothing v))
    (fun _ hv => hv) id id

theorem tight_type (R : List Item → Prop) :
    Tight calls call (fun v => ∀ r, typeEnd? v.rest = some r → R r) false Rule.declaredType (fun v => R v.rest)
      false := by
  intro s hs hquiet
  refine ⟨(h.kept (.type false) {} rfl s ⟨rfl, rfl, by simp [Entry.known]⟩ hquiet).1, hs _ ?_⟩
  exact h.type s.rest s rfl hquiet

omit h in
theorem tight_take {P : View → Prop} (hP : ∀ v, P v → v.kindAt 0 ∉ callKinds) :
    Tight calls call P false .take (fun _ => True) false :=
  .take (by simp) (fun v hv hmem => absurd hmem (hP v hv)) (fun _ _ => trivial)

omit h in
theorem startsShiftAssign_iff (v : View) : v.startsShiftAssign = true ↔
    v.kindAt 0 = .gt ∧ v.kindAt 1 = .gtEq ∧ v.rest.head?.any (·.joined) = true := by
  simp [View.startsShiftAssign, and_assoc]

omit h in
theorem startsShiftRight_iff (v : View) : v.startsShiftRight = true ↔
    v.kindAt 0 = .gt ∧ v.kindAt 1 = .gt ∧ v.rest.head?.any (·.joined) = true := by
  simp [View.startsShiftRight, and_assoc]

omit h in
theorem not_mem_of_precedence? {v : View} {n : Nat} (hv : v.precedence? = some n) : v.kindAt 0 ∉ callKinds := by
  intro hmem
  simp only [callKinds, List.mem_cons, List.not_mem_nil, or_false] at hmem
  obtain hk | hk | hk | hk | hk := hmem <;>
    simp [View.precedence?, View.startsShiftRight, View.startsShiftAssign, hk] at hv

theorem tight_sign {P : View → Prop} {f : View → Bool} (hP : ∀ v, P v → v.kindAt 0 ∉ callKinds)
    (hf : ∀ v, f v = true → v.kindAt 1 ∉ callKinds) :
    Tight calls call P false (.seq (Rule.when (.look f) .take) .take) (fun _ => True) false := by
  refine .seq (Q := fun v => v.kindAt 0 ∉ callKinds) h.advances (.branch ?_ ?_) (tight_take (fun _ hv => hv))
  · refine .take (by simp) (fun v hv hmem => absurd hmem (hP v hv.1)) (fun v hv => ?_)
    rw [kindAt_tail]
    exact hf v hv.2
  · exact Tight.skip.mono (fun v hv => hv.1) hP id id

theorem tight_assignment : Tight calls call (fun _ => True) false Rule.assignment (fun _ => True) false := by
  refine .branch (h.guarded _ _ rfl) (.branch (h.guarded _ _ rfl) (.scope (.seq h.advances
    (h.unguarded (.call .conditional) rfl)
    (.branch (.wrap (.seq h.advances (h.tight_sign ?_ ?_) (h.unguarded _ rfl)))
      (Tight.skip.mono (fun _ hv => hv) (fun _ _ => trivial) id id)))))
  · rintro v ⟨-, hv⟩ hmem
    simp only [Cond.holds, Bool.or_eq_true, Rule.shiftAssign, startsShiftAssign_iff] at hv
    obtain hv | hv := hv
    · simp only [callKinds, List.mem_cons, List.not_mem_nil, or_false] at hmem
      obtain hk | hk | hk | hk | hk := hmem <;> simp [Rule.isAssignmentSign, hk] at hv
    · simp [hv.1, callKinds] at hmem
  · intro v hv
    simp [((startsShiftAssign_iff v).mp hv).2.1, callKinds]

theorem tight_binaryLevel (level : Nat) :
    Tight calls call (fun v => (Rule.binaryLevel level).1.holds v = true) false (Rule.binaryLevel level).2
      (fun _ => True) false := by
  refine .wrap (.seq h.advances (h.tight_sign ?_ ?_) (h.unguarded _ rfl))
  · intro v hv
    exact not_mem_of_precedence? (by simpa [Rule.binaryLevel, Cond.holds] using hv)
  · intro v hv
    simp [((startsShiftRight_iff v).mp hv).2.1, callKinds]

theorem tight_binary (level : Nat) :
    Tight calls call (fun _ => True) false (Rule.binary level) (fun _ => True) false := by
  refine .scope (.seq h.advances (h.unguarded (.call .unary) rfl) (.loop h.advances (.choose ?_ ?_)))
  · intro c hc
    obtain hc | hc := List.mem_append.mp hc
    · simp only [List.mem_cons, List.not_mem_nil, or_false] at hc
      obtain rfl | rfl := hc
      · exact h.guarded _ _ rfl
      · exact h.guarded _ _ rfl
    · obtain ⟨n, -, rfl⟩ := List.mem_map.mp hc
      exact (h.tight_binaryLevel n).mono (fun _ hv => hv.2) (fun _ hv => hv) id id
  · exact Tight.skip.mono (fun _ hv => hv) (fun _ _ => trivial) id id

omit h in
theorem afterType_zero (v : View) : v.afterType 0 = typeEnd? v.rest := by
  rfl

omit h in
theorem tight_take_kind {k : Kind} (hk : k ∉ callKinds) :
    Tight calls call (fun v => headKind v.rest = k) false .take (fun _ => True) false := by
  refine tight_take (fun v hv => ?_)
  rw [View.kindAt_zero, hv]
  exact hk

theorem tight_argument {P : View → Prop} : Tight calls call P false Rule.argument (fun _ => True) false := by
  refine .scope (.wrap (.seq h.advances (h.unguarded _ rfl) (.branch (.seq h.advances (h.guarded _ _ rfl)
    (.branch (.seq h.advances ((h.tight_type (fun l => headKind l = .ident)).mono ?_ (fun _ hv => hv) id id)
      (tight_take_kind (by decide))) (h.unguarded _ rfl))) (h.unguarded _ rfl))))
  rintro v ⟨-, hv⟩ r hr
  simp only [Cond.holds, View.startsArgumentDeclaration, afterType_zero, hr, Option.any_some, Bool.and_eq_true,
    beq_iff_eq] at hv
  exact hv.1

theorem tight_argumentList :
    Tight calls call (fun _ => True) false Rule.argumentList (fun _ => True) false :=
  .scope (.wrap (.seq h.advances (.seq h.advances (h.unguarded _ rfl)
    (.commas h.advances (by decide) h.tight_argument)) (h.unguarded _ rfl)))

theorem tight_bracketedArgumentList :
    Tight calls call (fun _ => True) false Rule.bracketedArgumentList (fun _ => True) false :=
  .scope (.wrap (.seq h.advances (.seq h.advances (h.unguarded _ rfl)
    (.commas h.advances (by decide) h.tight_argument)) (h.unguarded _ rfl)))

theorem tight_typed {P : View → Prop} {m : TypedMember} {k : Kind} (hk : k ∉ callKinds)
    (hm : ∀ {v : View} {r}, typeEnd? v.rest = some r → v.typedMember = m → headKind r = k) :
    Tight calls call (fun v => P v ∧ (Rule.isTyped m).holds v = true) false (.seq Rule.declaredType .take)
      (fun _ => True) false := by
  refine .seq h.advances ((h.tight_type (fun l => headKind l = k)).mono ?_ (fun _ hv => hv) id id)
    (tight_take_kind hk)
  rintro v ⟨-, hv⟩ r hr
  exact hm hr (by simpa [Rule.isTyped, Cond.holds] using hv)

theorem tight_methodRest : Tight calls call (fun _ => True) true Rule.methodRest (fun _ => True) false := by
  refine .seq h.advances (.seq (Q := fun _ => True) h.advances ?_ (h.unguarded _ rfl)) (h.unguarded _ rfl)
  exact (h.kept .parameterList { pending := true } rfl).mono (fun _ _ => ⟨rfl, rfl, by simp [Entry.known]⟩)
    (fun _ hv => hv) id id

theorem tight_operator {P : View → Prop} :
    Tight calls call (fun v => P v ∧ (Rule.isTyped .operator).holds v = true) false
      (Rule.declaredType ++ .take ++ Rule.except (Rule.sees [.lParen]) .take ++ Rule.eat .gt ++ Rule.methodRest)
      (fun _ => True) false := by
  refine .seq (p := true) h.advances (.seq (Q := fun _ => True) (p := true) h.advances (.seq
    h.advances (h.tight_typed (by decide) (fun hr => (headKind_of_typedMember hr).2)) (.branch ?_ ?_))
    (.branch ?_ ?_)) h.tight_methodRest
  · exact Tight.skip.mono (fun _ hv => hv) (fun _ _ => trivial) id (by simp)
  · exact .take (by simp) (fun _ _ _ => .inr rfl) (fun _ _ => trivial)
  · refine .take (fun _ v hv => ?_) (fun _ _ _ => .inr rfl) (fun _ _ => trivial)
    have hk : v.kindAt 0 = .gt := by simpa [Rule.sees, Cond.holds] using hv.2
    rw [hk]
    show Kind.gt ∉ wordKinds
    decide
  · exact Tight.skip.mono (fun _ hv => hv) (fun _ _ => trivial) id id

theorem tight_typedMember {P : View → Prop} :
    Tight calls call P false Rule.typedMember (fun _ => True) false := by
  refine .choose (fun c hc => ?_) (h.unguarded _ rfl)
  simp only [List.mem_cons, List.not_mem_nil, or_false] at hc
  obtain rfl | rfl | rfl | rfl | rfl := hc
  · exact .wrap (.seq h.advances (.seq h.advances
      (h.tight_typed (by decide) (fun hr => (headKind_of_typedMember hr).1)) (h.unguarded _ rfl)) (h.unguarded _ rfl))
  · exact h.tight_operator.wrap
  · exact h.guarded _ _ rfl
  · exact h.guarded _ _ rfl
  · exact h.guarded _ _ rfl

theorem tight_member : Tight calls call (fun _ => True) false Rule.member (fun _ => True) false := by
  refine .scope (.seq h.advances (h.unguarded _ rfl) (.choose (fun c hc => ?_) (h.unguarded _ rfl)))
  simp only [List.mem_cons, List.not_mem_nil, or_false] at hc
  obtain rfl | rfl | rfl | rfl | rfl | rfl | rfl | rfl | rfl | rfl := hc
  case inr.inr.inr.inr.inr.inr.inr.inr.inr => exact h.tight_typedMember
  all_goals exact h.guarded _ _ rfl

end CallsKept

theorem callsKept (n : Nat) : CallsKept (Action.runStrict rule n) := by
  induction n with
  | zero =>
    refine ⟨typeRuns 0, fun g e _ s _ hq => ?_⟩
    simp [State.Quiet, Action.run, Action.runStrict, State.complain] at hq
  | succ n ih =>
    refine ⟨typeRuns (n + 1), fun g e he => ?_⟩
    show Tight calls (Action.runStrict rule n) (e.known calls).Holds e.pending (rule g) (fun _ => True) false
    have hrule : (calls.forecast Symbol.entry (rule g) (e.known calls) e.pending).settled = true →
        Tight calls (Action.runStrict rule n) (e.known calls).Holds e.pending (rule g) (fun _ => True) false :=
      (ih.forecast (rule g) (e.known calls) e.pending).tight
    cases g with
    | assignment =>
      cases he
      exact ih.tight_assignment.mono (fun _ _ => trivial) (fun _ hv => hv) id id
    | binary level =>
      cases he
      exact (ih.tight_binary level).mono (fun _ _ => trivial) (fun _ hv => hv) id id
    | member =>
      cases he
      exact ih.tight_member.mono (fun _ _ => trivial) (fun _ hv => hv) id id
    | argumentList =>
      cases he
      exact ih.tight_argumentList.mono (fun _ _ => trivial) (fun _ hv => hv) id id
    | bracketedArgumentList =>
      cases he
      exact ih.tight_bracketedArgumentList.mono (fun _ _ => trivial) (fun _ hv => hv) id id
    | type inExpression =>
      cases he
      cases inExpression <;> exact hrule rfl
    | _ =>
      cases he
      exact hrule rfl

theorem not_mem_wordKinds_of_outline {items : List Item} (h : (outline items).2 = []) {i : Nat} {y : Token}
    (hi : (Outline.tokensAll (outline items).1)[i]? = some y) (hy : y.kind ∈ callKinds) :
    View.kindAt ⟨items, 0⟩ (i + 1) ∉ wordKinds := by
  obtain ⟨⟨ts, hshown, -, -, hall⟩, -⟩ := (callsKept (depth items)).kept .compilationUnit {} rfl
    { rest := items } ⟨rfl, rfl, by simp [Entry.known]⟩ (quiet_outline h)
  have hts : Outline.tokensAll (outline items).1 = ts := by
    rw [Action.run, runStrict_outline h] at hshown
    simpa [State.shown, Outline.tokensAll, outline] using hshown
  rw [hts] at hi
  obtain hsign | ⟨-, hfalse⟩ := hall i y hi hy
  · exact hsign
  · exact absurd hfalse (by simp)

def defaults : Watch where
  hot := [.defaultKw]
  sign _ := False
  signed _ := false
  sound := by simp

def Symbol.typeEntry : Symbol → Option Entry
  | .type false | .plainType | .typeArgumentList | .arrayRanks => some {}
  | _ => none

theorem tight_defaults (n : Nat) (g : Symbol) (e : Entry) (he : g.typeEntry = some e) :
    Tight defaults (Action.runStrict rule n) (e.known defaults).Holds e.pending (.call g) (fun _ => True) false := by
  induction n generalizing g e with
  | zero =>
    intro s _ hq
    simp [State.Quiet, Action.run, Action.runStrict, State.complain] at hq
  | succ n ih =>
    have hrule := forecast_holds (w := defaults) (by decide) (Action.advances_runStrict rule n) ih (rule g)
      (e.known defaults) e.pending
    unfold Symbol.typeEntry at he
    split at he
    · cases he
      exact hrule.tight rfl
    · cases he
      exact hrule.tight rfl
    · cases he
      exact hrule.tight rfl
    · cases he
      exact hrule.tight rfl
    · cases he

def Opened (k : Kind) (cs : List Outline) : Prop :=
  k = .defaultExpr → ∃ d p rest, Outline.tokensAll cs = d :: p :: rest ∧ p.kind = .lParen ∧
    ∀ t ∈ rest, t.kind ≠ .defaultKw

theorem opened_of_ne {k : Kind} (hk : k ≠ .defaultExpr) (cs : List Outline) : Opened k cs :=
  fun h => absurd h hk

theorem keeps_defaultExpr {n : Nat} (hcall : ∀ g (s : State), s.Quiet (Action.runStrict rule n g s) →
      s.Every Opened → (Action.runStrict rule n g s).Every Opened) {P : View → Prop} :
    Action.Keeps Opened (Action.runStrict rule n)
      (fun v => P v ∧ (Cond.and (Rule.sees [.defaultKw]) (Rule.seesAt 1 [.lParen])).holds v = true)
      (Rule.node .defaultExpr (.take ++ .take ++ Rule.declaredType ++ Rule.expect .rParen)) := by
  intro s hs hquiet hev
  have hadv := Action.advances_runStrict rule n
  have htail : Tight defaults (Action.runStrict rule n) (fun _ => True) false
      (.seq Rule.declaredType (Rule.expect .rParen)) (fun _ => True) false :=
    .seq hadv ((tight_defaults n (.type false) {} rfl).mono (fun _ _ => ⟨rfl, rfl, by simp [Entry.known]⟩)
      (fun _ hv => Know.holds_nothing _) id id)
      ((forecast_holds (by decide) hadv (tight_defaults n) (Rule.expect .rParen) {} false).tight rfl)
  have hinner : Action.Keeps Opened (Action.runStrict rule n) (fun _ => True)
      (Action.take ++ Action.take ++ Rule.declaredType ++ Rule.expect .rParen : Rule) := by
    apply Action.keeps_of_nodes hadv hcall
    intro k hk
    cases hk
  simp only [Cond.holds, holds_sees, holds_seesAt_one, Bool.and_eq_true] at hs
  obtain ⟨i, m, hm, -⟩ := exists_cons_of_headKind (k := .defaultKw) (by simpa using hs.2.1) (by simp)
  have hsecond : secondKind s.rest = .lParen := by simpa using hs.2.2
  obtain ⟨j, l, hl, hj⟩ := exists_cons_of_headKind hsecond (by simp)
  rw [hm, List.tail_cons] at hl
  subst hl
  -- The keyword and the parenthesis are taken first, into a scope of their own.
  have hopen : (State.take (State.take { s with built := [] })) =
      { s with rest := l, taken := s.taken + 2, built := [.token j.toToken, .token i.toToken] } := by
    simp [State.take, hm]
  have hquiet' : State.Quiet (State.take (State.take { s with built := [] }))
      (Action.run (Action.runStrict rule n) (.seq Rule.declaredType (Rule.expect .rParen))
        (State.take (State.take { s with built := [] }))) := by
    rw [State.Quiet, State.complaints_take, State.complaints_take]
    exact hquiet
  obtain ⟨⟨ts, hshown, -, -, hall⟩, -⟩ := htail _ trivial hquiet'
  refine State.every_enclose hev (State.every_wrap _ ?_ ?_)
  · exact hinner _ trivial hquiet (by simp [State.Every])
  · intro _
    refine ⟨i.toToken, j.toToken, ts, ?_, hj, ?_⟩
    · have htwo : (State.take (State.take { s with built := [] })).shown = [i.toToken, j.toToken] := by
        simp [hopen, State.shown, Outline.tokensAll, Outline.tokens]
      rw [htwo] at hshown
      exact hshown
    · intro t ht hk
      obtain ⟨k, hlt, rfl⟩ := List.getElem_of_mem ht
      simpa [defaults] using hall k _ (List.getElem?_eq_getElem hlt) (by simp [defaults, hk])

theorem keeps_rule (n : Nat) (hcall : ∀ g (s : State), s.Quiet (Action.runStrict rule n g s) → s.Every Opened →
      (Action.runStrict rule n g s).Every Opened) (g : Symbol) :
    Action.Keeps Opened (Action.runStrict rule n) (fun _ => True) (rule g) := by
  have hplain : ∀ {P : View → Prop} (a : Rule), a.nodes.all (· != .defaultExpr) = true →
      Action.Keeps Opened (Action.runStrict rule n) P a := by
    intro P a ha
    refine Action.keeps_of_nodes (Action.advances_runStrict rule n) hcall (fun k hk => opened_of_ne ?_)
    simpa using List.all_eq_true.mp ha k hk
  cases g with
  | primary =>
    refine Action.Keeps.choose (fun c hc => ?_) (hplain _ rfl)
    simp only [List.mem_cons, List.not_mem_nil, or_false] at hc
    obtain rfl | rfl | rfl | rfl | rfl | rfl | rfl | rfl | rfl | rfl | rfl | rfl | rfl | rfl | rfl := hc
    case inr.inr.inr.inr.inr.inr.inr.inr.inr.inr.inl => exact keeps_defaultExpr hcall
    all_goals exact hplain _ rfl
  | type inExpression => cases inExpression <;> exact hplain _ rfl
  | _ => exact hplain _ rfl

theorem opened_runStrict (n : Nat) (g : Symbol) (s : State) (hq : s.Quiet (Action.runStrict rule n g s))
    (hs : s.Every Opened) : (Action.runStrict rule n g s).Every Opened := by
  induction n generalizing g s with
  | zero => exact hs
  | succ n ih => exact keeps_rule n ih g s trivial hq hs

theorem opened_outline {items : List Item} (h : (outline items).2 = []) :
    Outline.EveryAll Opened (outline items).1 := by
  have hopen := opened_runStrict _ _ _ (quiet_outline h) (by simp [State.Every])
  rw [runStrict_outline h] at hopen
  rw [Outline.everyAll_iff]
  exact fun o ho => hopen o (List.mem_reverse.mp ho)

end Lintel.Grammar
