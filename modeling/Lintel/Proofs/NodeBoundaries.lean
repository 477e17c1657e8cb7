import Lintel.Proofs.LeadingTrivia

namespace Lintel

namespace Grammar

def Sealed (k : Kind) (cs : List Outline) : Prop :=
  k ≠ .error ∧ ∀ o ∈ cs.getLast?, o.isGap = false

namespace State

def Tidy (s : State) : Prop :=
  s.Every Sealed ∧ ∀ o ∈ s.built.head?, o.isGap = false

variable {s : State}

theorem tidy_push (h : s.Tidy) (t : Token) : Tidy { s with built := .token t :: s.built } := by
  refine ⟨fun o ho => ?_, ?_⟩
  · obtain rfl | ho := List.mem_cons.mp ho
    · trivial
    · exact h.1 o ho
  · rintro o ⟨⟩
    rfl

theorem tidy_take (h : s.Tidy) : s.take.Tidy := by
  unfold take
  split
  · exact h
  · exact tidy_push h _

theorem tidy_takeAs (h : s.Tidy) (k : Kind) : (s.takeAs k).Tidy := by
  unfold takeAs
  split
  · exact h
  · exact tidy_push h _

theorem tidy_wrap (h : s.Tidy) {k : Kind} (hk : k ≠ .error) : (s.wrap k).Tidy := by
  refine ⟨every_wrap k h.1 ⟨hk, ?_⟩, ?_⟩
  · rw [List.getLast?_reverse]
    exact h.2
  · rintro o ⟨⟩
    rfl

theorem tidy_enclose {f : State → State} (h : s.Tidy) (hf : (f { s with built := [] }).Tidy)
    (hne : (f { s with built := [] }).built ≠ []) : (s.enclose f).Tidy := by
  refine ⟨every_enclose h.1 hf.1, ?_⟩
  obtain ⟨o, os, hos⟩ := List.exists_cons_of_ne_nil hne
  have hlast := hf.2
  rw [hos] at hlast
  simpa [enclose, hos] using hlast

end State

namespace Action

variable {σ : Type}

def isWrap : Action σ → Bool
  | wrap _ _ => true
  | _ => false

def complains : Action σ → Bool
  | complain _ => true
  | seq a b => a.complains || b.complains
  | scope a => a.complains
  | wrap _ a => a.complains
  | branch _ a b => a.complains && b.complains
  | inQuery a => a.complains
  | _ => false

def seals (lazy : σ → Bool) : Action σ → Know → Bool
  | seq a b, K => a.seals lazy K && b.seals lazy (a.after K)
  | scope a, K => (a.isWrap || !a.idle lazy K) && a.seals lazy K
  | wrap k a, K => (k != .error || a.complains) && a.seals lazy K
  | branch c a b, K => a.seals lazy (c.learn true K) && b.seals lazy (c.learn false K)
  | loop _ a, _ => a.seals lazy {}
  | commas _ _ a, _ => a.seals lazy {}
  | progress a, K => a.seals lazy K
  | inQuery a, K => a.seals lazy K
  | _, _ => true

section Tidy

variable {lazy : σ → Bool} {call : σ → State → State}

theorem not_quiet_of_complains (hadv : ∀ g (s : State), s.Advances (call g s)) {a : Action σ} (h : a.complains = true)
    (s : State) : ¬s.Quiet (a.run call s) := by
  induction a generalizing s with
  | complain f => simp [State.Quiet, run, State.complain]
  | seq a b iha ihb =>
    intro hq
    obtain ⟨hqa, hqb⟩ := (a.advances hadv s).quiet (b.advances hadv _) hq
    obtain ha | hb := Bool.or_eq_true_iff.mp h
    · exact iha ha s hqa
    · exact ihb hb _ hqb
  | scope a ih => exact ih h { s with built := [] }
  | wrap k a ih => exact ih h s
  | branch c a b iha ihb =>
    rw [complains, Bool.and_eq_true] at h
    rw [run]
    split
    · exact iha h.1 s
    · exact ihb h.2 s
  | inQuery a ih => exact ih h { s with queries := s.queries + 1 }
  | _ => cases h

theorem built_ne_nil_of_run (hadv : ∀ g (s : State), s.Advances (call g s))
    (hlazy : ∀ g (s : State), s.Quiet (call g s) → (call g s).rest.length = s.rest.length → lazy g = true)
    {a : Action σ} {K : Know} {s : State} (h : (a.isWrap || !a.idle lazy K) = true) (hK : K.Holds s.toView)
    (hq : s.Quiet (a.run call s)) : (a.run call s).built ≠ [] := by
  obtain hwrap | hidle := Bool.or_eq_true_iff.mp h
  · cases a with
    | wrap k a => simp [run, State.wrap]
    | _ => cases hwrap
  · have hadvance := a.advances hadv s
    have hle := hadvance.length_le
    have hne : (a.run call s).rest.length ≠ s.rest.length := by
      intro hr
      rw [idle_of_run hadv hlazy a hK hq hr] at hidle
      cases hidle
    intro hnil
    apply hadvance.shown_ne_nil_of_length (by omega)
    rw [State.shown, hnil]
    rfl

theorem holds_repeatCommas {c : Cond} {f : State → State} {P : State → Prop} (hadv : ∀ s : State, s.Advances (f s))
    (htake : ∀ s : State, P s → P s.take)
    (hf : ∀ s : State, P s → s.Quiet (f s) → P (f s)) (strict : Bool) (n : Nat) {s : State}
    (hs : P s) (hq : s.Quiet (State.repeatCommas strict c f n s)) : P (State.repeatCommas strict c f n s) := by
  induction n generalizing s with
  | zero => exact hs
  | succ n ih =>
    rw [State.repeatCommas] at hq ⊢
    by_cases hc : c.holds s.toView = true
    · simp only [if_pos hc] at hq ⊢
      by_cases hcomma : (f s).kindAt 0 == .comma
      · simp only [if_pos hcomma] at hq ⊢
        have hloop := State.steady_advances.repeatCommas (c := c) (fun s _ => hadv s) strict n (f s).take
        have hstep := State.steady_advances.take (f s)
        obtain ⟨hq₁, hq₂⟩ := (hadv s).quiet (State.steady_advances.trans hstep hloop) hq
        exact ih (htake _ (hf s hs hq₁)) (hstep.quiet hloop hq₂).2
      · simp only [if_neg hcomma] at hq ⊢
        cases strict with
        | false => exact hf s hs hq
        | true =>
          obtain ⟨hq₁, hq₂⟩ := (hadv s).quiet (State.steady_advances.setAside _ _) hq
          simp only [if_true, State.setAside_of_quiet hq₂]
          exact hf s hs hq₁
    · simp only [if_neg hc]
      exact hs

theorem tidy_run (hadv : ∀ g (s : State), s.Advances (call g s))
    (hlazy : ∀ g (s : State), s.Quiet (call g s) → (call g s).rest.length = s.rest.length → lazy g = true)
    (hcall : ∀ g (s : State), s.Quiet (call g s) → s.Tidy → (call g s).Tidy) (a : Action σ) {K : Know} {s : State}
    (h : a.seals lazy K = true) (hK : K.Holds s.toView) (hq : s.Quiet (a.run call s)) (hs : s.Tidy) :
    (a.run call s).Tidy := by
  induction a generalizing K s with
  | skip => exact hs
  | take => exact State.tidy_take hs
  | takeAs k => exact State.tidy_takeAs hs k
  | complain f => exact hs
  | seq a b iha ihb =>
    rw [seals, Bool.and_eq_true] at h
    obtain ⟨hqa, hqb⟩ := (a.advances hadv s).quiet (b.advances hadv _) hq
    exact ihb h.2 (a.after_holds hK) hqb (iha h.1 hK hqa hs)
  | scope a ih =>
    rw [seals, Bool.and_eq_true] at h
    apply State.tidy_enclose hs
    · exact ih (s := { s with built := [] }) h.2 hK hq ⟨by simp [State.Every], nofun⟩
    · exact built_ne_nil_of_run (s := { s with built := [] }) hadv hlazy h.1 hK hq
  | wrap k a ih =>
    rw [seals, Bool.and_eq_true] at h
    apply State.tidy_wrap (ih h.2 hK hq hs)
    rintro rfl
    have hcomplains : a.complains = true := by simpa using h.1
    exact not_quiet_of_complains hadv hcomplains s hq
  | branch c a b iha ihb =>
    rw [seals, Bool.and_eq_true] at h
    rw [run] at hq ⊢
    by_cases hc : c.holds s.toView = true
    · rw [if_pos hc] at hq ⊢
      exact iha h.1 (Cond.learn_holds hc hK) hq hs
    · rw [if_neg hc] at hq ⊢
      exact ihb h.2 (Cond.learn_holds (by simpa using hc) hK) hq hs
  | loop c a ih =>
    refine holds_repeatWhile (a.advances hadv) (fun t ht hqt => ?_) _ hs hq
    exact ih h (Know.holds_nothing _) hqt ht
  | commas strict c a ih =>
    refine holds_repeatCommas (a.advances hadv) (fun t ht => State.tidy_take ht) (fun t ht hqt => ?_) strict _ hs hq
    exact ih h (Know.holds_nothing _) hqt ht
  | progress a ih =>
    obtain ⟨hqa, hqb⟩ := (a.advances hadv s).quiet (State.steady_advances.setAside _ _) hq
    rw [run, State.setAside_of_quiet hqb]
    exact ih h hK hqa hs
  | inQuery a ih => exact ih (s := { s with queries := s.queries + 1 }) h ⟨hK.first, hK.second, hK.some⟩ hq hs
  | call g => exact hcall g s hq hs

end Tidy

end Action

theorem rule_seals (g : Symbol) : (rule g).seals Symbol.lazy {} = true := by
  cases g <;> rfl

theorem sealed_outline {items : List Item} (h : (outline items).2 = []) :
    Outline.EveryAll Sealed (outline items).1 := by
  have htidy : ∀ n g (s : State), s.Quiet (Action.runStrict rule n g s) → s.Tidy →
    (Action.runStrict rule n g s).Tidy := by
    intro n
    induction n with
    | zero => exact fun g s _ hs => hs
    | succ n ih =>
      intro g s hq hs
      exact Action.tidy_run (Action.advances_runStrict rule n) (Action.lazy_of_runStrict lazyRules n) ih (rule g)
        (rule_seals g) (Know.holds_nothing _) hq hs
  have hall := (htidy _ _ _ (quiet_outline h) ⟨by simp [State.Every], nofun⟩).1
  rw [runStrict_outline h] at hall
  rw [Outline.everyAll_iff]
  exact fun o ho => hall o (List.mem_reverse.mp ho)

end Grammar

namespace Outline

mutual

theorem head_weave : (o : Outline) → (gaps : Gaps) → gaps.Ready → (∀ u ∈ o.tokens, u.isTrivia = false) →
    (∀ u ∈ (Tree.tokensAll (weave o gaps).1).head?, u.isTrivia = false) ∧
      (Tree.tokensAll (weave o gaps).1 = [] → Gaps.Ready (weave o gaps).2)
  | .token t, [], _, hs => by
    simpa [weave, Tree.tokensAll, Tree.leaf, Tree.tokens, tokens] using hs
  | .token t, g :: gaps, hready, hs => by
    obtain rfl := hready g rfl
    simpa [weave, Tree.tokensAll, Tree.leaf, Tree.tokens, tokens] using hs
  | .gap, [], hready, _ => ⟨nofun, fun _ => hready⟩
  | .gap, g :: gaps, hready, _ => by
    obtain rfl := hready g rfl
    exact ⟨nofun, fun _ => hready⟩
  | .node k cs, gaps, hready, hs => by
    have hall := head_weaveAll cs gaps hready hs
    simpa [weave, Tree.tokensAll, Tree.tokens] using hall

theorem head_weaveAll : (os : List Outline) → (gaps : Gaps) → gaps.Ready → (∀ u ∈ tokensAll os, u.isTrivia = false) →
    (∀ u ∈ (Tree.tokensAll (weaveAll os gaps).1).head?, u.isTrivia = false) ∧
      (Tree.tokensAll (weaveAll os gaps).1 = [] → Gaps.Ready (weaveAll os gaps).2)
  | [], gaps, hready, _ => ⟨nofun, fun _ => hready⟩
  | o :: os, gaps, hready, hs => by
    rw [tokensAll, List.forall_mem_append] at hs
    obtain ⟨hhead, hnext⟩ := head_weave o gaps hready hs.1
    rw [weaveAll]
    simp only [Tree.tokensAll_append]
    cases hfirst : Tree.tokensAll (weave o gaps).1 with
    | nil => exact head_weaveAll os _ (hnext hfirst) hs.2
    | cons u us =>
      rw [hfirst] at hhead
      exact ⟨by simpa using hhead, by simp⟩

end

def Starting (_ : Kind) (cs : List Tree) : Prop :=
  ∀ u ∈ (Tree.tokensAll cs).head?, u.isTrivia = false

mutual

theorem starting_weave {ready : Bool} : (o : Outline) → (gaps : Gaps) → (ready = true → gaps.Ready) → o.Led ready →
    (∀ u ∈ o.tokens, u.isTrivia = false) → Tree.EachAll Starting (weave o gaps).1
  | .token t, [], _, _, _ => ⟨trivial, trivial⟩
  | .token t, g :: gaps, _, _, _ => by
    rw [weave]
    exact Tree.eachAll_append.mpr ⟨eachAll_leaves _ g, trivial, trivial⟩
  | .gap, [], _, _, _ => trivial
  | .gap, g :: gaps, _, _, _ => eachAll_leaves _ g
  | .node k cs, gaps, hready, hled, hs =>
    have hgaps := hready hled.1
    ⟨⟨(head_weaveAll cs gaps hgaps hs).1, starting_weaveAll cs gaps (fun _ => hgaps) hled.2 hs⟩, trivial⟩

theorem starting_weaveAll {ready : Bool} : (os : List Outline) → (gaps : Gaps) → (ready = true → gaps.Ready) →
    LedAll ready os → (∀ u ∈ tokensAll os, u.isTrivia = false) → Tree.EachAll Starting (weaveAll os gaps).1
  | [], _, _, _, _ => trivial
  | o :: os, gaps, hready, hled, hs => by
    rw [tokensAll, List.forall_mem_append] at hs
    exact Tree.eachAll_append.mpr ⟨starting_weave o gaps hready hled.1 hs.1,
      starting_weaveAll os _ (fun hgap => ready_weave_gap hgap gaps) hled.2 hs.2⟩

end

mutual

theorem last_weave : (o : Outline) → (gaps : Gaps) → o.isGap = false → (∀ u ∈ o.tokens, u.isTrivia = false) →
    o.Every (fun _ cs => tokensAll cs ≠ []) → o.Every Grammar.Sealed →
    ∃ u, (Tree.tokensAll (weave o gaps).1).getLast? = some u ∧ u.isTrivia = false
  | .token t, [], _, hs, _, _ => ⟨t, rfl, hs t (by simp [tokens])⟩
  | .token t, g :: gaps, _, hs, _, _ =>
    ⟨t, by simp [weave, Tree.tokensAll, Tree.leaf, Tree.tokens], hs t (by simp [tokens])⟩
  | .node k cs, gaps, _, hs, hfilled, hsealed => by
    have hne : cs ≠ [] := by
      rintro rfl
      exact hfilled.1 rfl
    have hlast := last_weaveAll cs gaps hne hsealed.1.2 hs hfilled.2 hsealed.2
    simpa [weave, Tree.tokensAll, Tree.tokens] using hlast

theorem last_weaveAll : (os : List Outline) → (gaps : Gaps) → os ≠ [] → (∀ o ∈ os.getLast?, o.isGap = false) →
    (∀ u ∈ tokensAll os, u.isTrivia = false) → EveryAll (fun _ cs => tokensAll cs ≠ []) os →
    EveryAll Grammar.Sealed os → ∃ u, (Tree.tokensAll (weaveAll os gaps).1).getLast? = some u ∧ u.isTrivia = false
  | [o], gaps, _, hend, hs, hfilled, hsealed => by
    have hlast := last_weave o gaps (hend o rfl) (by simpa [tokensAll] using hs) hfilled.1 hsealed.1
    simpa [weaveAll] using hlast
  | o :: p :: os, gaps, _, hend, hs, hfilled, hsealed => by
    rw [tokensAll, List.forall_mem_append] at hs
    obtain ⟨u, hu, hsig⟩ := last_weaveAll (p :: os) (weave o gaps).2 (by simp) (by simpa using hend) hs.2
      hfilled.2 hsealed.2
    refine ⟨u, ?_, hsig⟩
    rw [weaveAll, Tree.tokensAll_append, List.getLast?_append, hu]
    rfl

end

def Ending (k : Kind) (cs : List Tree) : Prop :=
  k ≠ .error ∧ ∃ u, (Tree.tokensAll cs).getLast? = some u ∧ u.isTrivia = false

mutual

theorem ending_weave : (o : Outline) → (gaps : Gaps) → (∀ u ∈ o.tokens, u.isTrivia = false) →
    o.Every (fun _ cs => tokensAll cs ≠ []) → o.Every Grammar.Sealed → Tree.EachAll Ending (weave o gaps).1
  | .token t, [], _, _, _ => ⟨trivial, trivial⟩
  | .token t, g :: gaps, _, _, _ => by
    rw [weave]
    exact Tree.eachAll_append.mpr ⟨eachAll_leaves _ g, trivial, trivial⟩
  | .gap, [], _, _, _ => trivial
  | .gap, g :: gaps, _, _, _ => eachAll_leaves _ g
  | .node k cs, gaps, hs, hfilled, hsealed => by
    have hlast := last_weave (.node k cs) gaps rfl hs hfilled hsealed
    refine ⟨⟨⟨hsealed.1.1, ?_⟩, ending_weaveAll cs gaps hs hfilled.2 hsealed.2⟩, trivial⟩
    simpa [weave, Tree.tokensAll, Tree.tokens] using hlast

theorem ending_weaveAll : (os : List Outline) → (gaps : Gaps) → (∀ u ∈ tokensAll os, u.isTrivia = false) →
    EveryAll (fun _ cs => tokensAll cs ≠ []) os → EveryAll Grammar.Sealed os → Tree.EachAll Ending (weaveAll os gaps).1
  | [], _, _, _, _ => trivial
  | o :: os, gaps, hs, hfilled, hsealed => by
    rw [tokensAll, List.forall_mem_append] at hs
    exact Tree.eachAll_append.mpr ⟨ending_weave o gaps hs.1 hfilled.1 hsealed.1,
      ending_weaveAll os _ hs.2 hfilled.2 hsealed.2⟩

end

end Outline

namespace Zipper

theorem each_below {Q : Kind → List Tree → Prop} {t : Tree} {f : Frame} {fs : List Frame} {k : Kind} {cs : List Tree}
    (h : plug t (f :: fs) = .node k cs) (hQ : Tree.EachAll Q cs) : t.Each Q := by
  induction fs generalizing t f with
  | nil =>
    obtain ⟨-, rfl⟩ := Tree.node.inj h
    exact (Tree.eachAll_append.mp hQ).2.1
  | cons g fs ih => exact (Tree.eachAll_append.mp (ih h).2).2.1

theorem below_of_each {Q : Kind → List Tree → Prop} {z : Zipper} {k : Kind} {cs : List Tree} (h : z.root = .node k cs)
    (hQ : Tree.EachAll Q cs) (hbelow : z.above ≠ []) (hnode : z.isNode = true) :
    ∃ k' cs', z.focus = .node k' cs' ∧ Q k' cs' := by
  obtain ⟨focus, above⟩ := z
  cases above with
  | nil => exact absurd rfl hbelow
  | cons f fs =>
    cases focus with
    | token k t => cases hnode
    | node k' cs' => exact ⟨k', cs', rfl, (each_below h hQ).1⟩

end Zipper

theorem ParseFault.category_grammar (f : GrammarFault) :
    (ParseFault.grammar f).category = "Unexpected" ∨ (ParseFault.grammar f).category = "Expected" := by
  rw [category]
  split
  · exact .inl rfl
  · exact .inr rfl

theorem outline_of_category {t : Text}
    (h : ∀ f ∈ (parse t).faults, f.fault.category ≠ "Expected" ∧ f.fault.category ≠ "Unexpected") :
    (Grammar.outline (itemsOf t)).2 = [] := by
  have hnone : Parse.locate ((lex t).map (·.toToken)) (Grammar.outline (itemsOf t)).2 = [] := by
    apply List.eq_nil_iff_forall_not_mem.mpr
    intro f hf
    obtain ⟨hexpected, hunexpected⟩ := h f (List.mem_append_right _ hf)
    obtain ⟨c, -, rfl⟩ := List.mem_map.mp hf
    obtain hc | hc := ParseFault.category_grammar c.fault
    · exact hunexpected hc
    · exact hexpected hc
  exact List.map_eq_nil_iff.mp hnone

theorem starting_parse (t : Text) :
    ∃ cs, (parse t).tree = .node .compilationUnit cs ∧ Tree.EachAll Outline.Starting cs :=
  ⟨_, rfl, Tree.eachAll_append.mpr ⟨@Outline.starting_weaveAll false _ _ nofun (Grammar.led_outline _)
    (isTrivia_tokens_outline _), Outline.eachAll_leaves _ _⟩⟩

theorem ending_parse {t : Text} (h : (Grammar.outline (itemsOf t)).2 = []) :
    ∃ cs, (parse t).tree = .node .compilationUnit cs ∧ Tree.EachAll Outline.Ending cs :=
  ⟨_, rfl, Tree.eachAll_append.mpr ⟨Outline.ending_weaveAll _ _ (isTrivia_tokens_outline _)
    (Grammar.filled_outline h) (Grammar.sealed_outline h), Outline.eachAll_leaves _ _⟩⟩

/-- In every text, a node below the root does not start with trivia. If the grammar has no complaint, no node is an
error, and a node below the root is not empty and does not end with trivia. -/
theorem node_boundaries (t : Text) :
    (∀ z : Zipper, z.root = (parse t).tree → z.isNode = true → z.above ≠ [] →
      ∀ u ∈ z.focus.tokens.head?, u.isTrivia = false) ∧
    ((∀ f ∈ (parse t).faults, f.fault.category ≠ "Expected" ∧ f.fault.category ≠ "Unexpected") →
      ∀ z : Zipper, z.root = (parse t).tree → z.isNode = true → z.kind ≠ .error ∧
        (z.above ≠ [] → ∃ u, z.focus.tokens.getLast? = some u ∧ u.isTrivia = false)) := by
  constructor
  · intro z hroot hnode hbelow
    obtain ⟨cs, htree, hall⟩ := starting_parse t
    obtain ⟨k, cs', hfocus, hstart⟩ := Zipper.below_of_each (hroot.trans htree) hall hbelow hnode
    rw [hfocus]
    exact hstart
  · intro hfaults z hroot hnode
    obtain ⟨cs, htree, hall⟩ := ending_parse (outline_of_category hfaults)
    by_cases hbelow : z.above = []
    · have hfocus : z.focus = .node .compilationUnit cs := by
        rw [← htree, ← hroot, Zipper.root, hbelow]
        rfl
      rw [Zipper.kind, hfocus]
      exact ⟨(by decide : Kind.compilationUnit ≠ .error), fun hne => absurd hbelow hne⟩
    · obtain ⟨k, cs', hfocus, hk, hend⟩ := Zipper.below_of_each (hroot.trans htree) hall hbelow hnode
      rw [Zipper.kind, hfocus]
      exact ⟨hk, fun _ => hend⟩

def unfinished : Zipper :=
  ⟨.node .exprStmt [.node .nameExpr [.token .ident ['x']], .token .whitespace [' '], .token .semicolon [';']],
    [⟨.compilationUnit, [.token .whitespace [' ']], [.token .blockComment ['/', '*']]⟩]⟩

theorem node_boundaries_unfinished :
    unfinished.root = (parse " x ;/*".toList).tree ∧ (parse " x ;/*".toList).faults ≠ [] ∧
      (∀ f ∈ (parse " x ;/*".toList).faults, f.fault.category ≠ "Expected" ∧ f.fault.category ≠ "Unexpected") ∧
      (∀ u ∈ unfinished.focus.tokens.head?, u.isTrivia = false) ∧
      ∃ u, unfinished.focus.tokens.getLast? = some u ∧ u.isTrivia = false := by
  obtain ⟨hsame, hsome, hfaults⟩ : unfinished.root.same (parse " x ;/*".toList).tree = true ∧
      (parse " x ;/*".toList).faults ≠ [] ∧
      ∀ f ∈ (parse " x ;/*".toList).faults, f.fault.category ≠ "Expected" ∧ f.fault.category ≠ "Unexpected" := by
    decide +kernel
  have hroot := Tree.eq_of_same _ _ hsame
  obtain ⟨hstart, hend⟩ := node_boundaries " x ;/*".toList
  exact ⟨hroot, hsome, hfaults, hstart unfinished hroot rfl (by simp [unfinished]),
    (hend hfaults unfinished hroot rfl).2 (by simp [unfinished])⟩

end Lintel
