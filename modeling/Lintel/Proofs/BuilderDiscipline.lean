import Lintel.Proofs.TreeBuilder
import Lintel.Proofs.Weaving

namespace Lintel

open Outline

theorem Outline.weaveAll_append (cs ds : List Outline) (gaps : Gaps) :
    weaveAll (cs ++ ds) gaps =
      ((weaveAll cs gaps).1 ++ (weaveAll ds (weaveAll cs gaps).2).1, (weaveAll ds (weaveAll cs gaps).2).2) := by
  induction cs generalizing gaps with
  | nil => simp [weaveAll]
  | cons c cs ih => simp [weaveAll, ih]

theorem Builder.tokens_eq (b : Builder) (ts : List Token) :
    b.tokens ts = { b with made := (ts.map .leaf).reverse ++ b.made } := by
  induction ts generalizing b with
  | nil => rfl
  | cons t ts ih =>
    have h := ih (b.token t)
    simp only [tokens, List.foldl_cons] at h ⊢
    rw [h]
    simp [token]

theorem Builder.finishNode?_outermost (k : Kind) (made : List Tree) :
    finishNode? { opened := [(k, 0)], made } = some { made := [.node k made.reverse] } := by
  simp [finishNode?]

namespace Grammar

structure Scope where
  opened : List (Kind × Nat)
  base : List Tree
  gaps : Gaps
  trailing : List Token
  valid : opened.head?.all (fun o => o.2 ≤ base.length) = true

theorem Scope.valid_of_le (f : Scope) {n : Nat} (h : f.base.length ≤ n) :
    f.opened.head?.all (fun o => o.2 ≤ n) = true := by
  have hv := f.valid
  cases ho : f.opened with
  | nil => rfl
  | cons o os =>
    simp only [ho, List.head?_cons, Option.all_some, decide_eq_true_eq] at hv ⊢
    omega

def Scope.woven (f : Scope) (s : State) : List Tree × Gaps :=
  weaveAll s.built.reverse f.gaps

structure Follows (f : Scope) (s : State) (a : Assembly) : Prop where
  view : a.toView = s.toView
  taken : a.taken = s.taken
  opened : a.builder.opened = f.opened
  made : a.builder.made = (f.woven s).1.reverse ++ f.base
  pending : a.pending = stitch (f.woven s).2 (s.rest.map (·.toToken)) ++ f.trailing
  length : (f.woven s).2.length = s.rest.length
  trivia : ∀ g ∈ (f.woven s).2, ∀ t ∈ g, t.isTrivia = true
  items : ∀ i ∈ s.rest, i.isTrivia = false

theorem takeWhile_stitch {g : List Token} {t : Token} (ts : List Token)
    (hg : ∀ u ∈ g, u.isTrivia = true) (ht : t.isTrivia = false) :
    (g ++ t :: ts).takeWhile (·.isTrivia) = g ∧ (g ++ t :: ts).dropWhile (·.isTrivia) = t :: ts := by
  rw [List.takeWhile_append_of_pos hg, List.dropWhile_append_of_pos hg]
  simp [ht]

theorem Scope.woven_push (f : Scope) (s : State) (o : Outline) :
    f.woven { s with built := o :: s.built } =
      ((f.woven s).1 ++ (weave o (f.woven s).2).1, (weave o (f.woven s).2).2) := by
  simp [woven, weaveAll_append, weaveAll]

namespace Follows

variable {f : Scope} {s : State} {a : Assembly}

theorem exists_gaps (h : Follows f s a) {i : Item} {rest : List Item} (hr : s.rest = i :: rest) :
    ∃ g gaps, (f.woven s).2 = g :: gaps ∧ gaps.length = rest.length := by
  have hlen := h.length
  rw [hr] at hlen
  cases hw : (f.woven s).2 with
  | nil => simp [hw] at hlen
  | cons g gaps => exact ⟨g, gaps, rfl, by simpa [hw] using hlen⟩

theorem rest_eq (h : Follows f s a) : a.rest = s.rest :=
  congrArg View.rest h.view

theorem flush (h : Follows f s a) : Follows f { s with built := .gap :: s.built } a.flush := by
  cases hr : s.rest with
  | nil =>
    have hgaps : (f.woven s).2 = [] := List.length_eq_zero_iff.mp (by simpa [hr] using h.length)
    have hw : f.woven { s with built := .gap :: s.built } = f.woven s := by
      rw [Scope.woven_push, hgaps]
      ext1 <;> simp [weave, hgaps]
    have hflush : a.flush = a := by simp [Assembly.flush, h.rest_eq, hr]
    rw [hflush]
    exact ⟨h.view, h.taken, h.opened, hw ▸ h.made, hw ▸ h.pending, hw ▸ h.length, hw ▸ h.trivia, h.items⟩
  | cons i rest =>
    obtain ⟨g, gaps, hg, hlen⟩ := h.exists_gaps hr
    have hw : f.woven { s with built := .gap :: s.built } = ((f.woven s).1 ++ g.map .leaf, [] :: gaps) := by
      rw [Scope.woven_push, hg]
      rfl
    have hcut := takeWhile_stitch (stitch gaps (rest.map (·.toToken)) ++ f.trailing)
      (h.trivia g (by simp [hg])) (h.items i (by simp [hr]))
    have hpending : a.pending =
        g ++ i.toToken :: (stitch gaps (rest.map (·.toToken)) ++ f.trailing) := by
      simp [h.pending, hg, hr, stitch]
    have hflush : a.flush = { a with
        pending := i.toToken :: (stitch gaps (rest.map (·.toToken)) ++ f.trailing)
        builder := a.builder.tokens g } := by
      simp only [Assembly.flush, h.rest_eq, hr, hpending, hcut.1, hcut.2]
    rw [hflush]
    refine ⟨h.view, h.taken, ?_, ?_, ?_, ?_, ?_, h.items⟩
    · rw [Builder.tokens_eq]
      exact h.opened
    · rw [Builder.tokens_eq, hw]
      simp [h.made]
    · simp [hw, hr, stitch]
    · simp [hw, hr, hlen]
    · intro u hu
      simp only [hw, List.mem_cons] at hu
      obtain rfl | hu := hu
      · simp
      · exact h.trivia u (by simp [hg, hu])

theorem take (h : Follows f s a) (shown : Item → Token) :
    Follows f
      (match s.rest with
        | [] => s
        | i :: rest => { s with rest, taken := s.taken + 1, built := .token (shown i) :: s.built })
      (a.take shown) := by
  cases hr : s.rest with
  | nil =>
    have htake : a.take shown = a := by simp [Assembly.take, h.rest_eq, hr]
    rw [htake]
    exact h
  | cons i rest =>
    obtain ⟨g, gaps, hg, hlen⟩ := h.exists_gaps hr
    have hf := h.flush
    have hwf : f.woven { s with built := .gap :: s.built } = ((f.woven s).1 ++ g.map Tree.leaf, [] :: gaps) := by
      rw [Scope.woven_push, hg]
      rfl
    have hw (s' : State) (hs' : s'.built = .token (shown i) :: s.built) :
        f.woven s' = ((f.woven s).1 ++ (g.map Tree.leaf ++ [Tree.leaf (shown i)]), gaps) := by
      have hpush := f.woven_push s (.token (shown i))
      rw [hg] at hpush
      rw [Scope.woven, hs']
      exact hpush
    have htake : a.take shown = { a.flush with
        rest, taken := a.taken + 1, pending := a.flush.pending.tail
        builder := a.flush.builder.token (shown i) } := by
      simp only [Assembly.take, h.rest_eq, hr]
    rw [htake]
    refine ⟨?_, ?_, hf.opened, ?_, ?_, ?_, ?_, ?_⟩
    · have hq : a.flush.queries = s.queries := congrArg View.queries hf.view
      simp [hq]
    · simp [h.taken]
    · rw [hw _ rfl]
      simp [Builder.token, hf.made, hwf]
    · rw [hw _ rfl]
      simp [hf.pending, hwf, hr, stitch]
    · rw [hw _ rfl]
      exact hlen
    · rw [hw _ rfl]
      intro u hu
      exact h.trivia u (by simp [hg, hu])
    · intro j hj
      exact h.items j (by simp [hr, hj])

theorem enclose (h : Follows f s a) (run : State → State)
    (assemble : Nat → Assembly → Option Assembly)
    (hrun : ∀ {f : Scope} {s : State} {a : Assembly}, Follows f s a →
      ∃ b, assemble f.base.length a = some b ∧ Follows f (run s) b) :
    ∃ b, assemble a.flush.builder.checkpoint a.flush = some b ∧ Follows f (s.enclose run) b := by
  have hf := h.flush
  let inner : Scope :=
    { opened := f.opened
      base := a.flush.builder.made
      gaps := (f.woven { s with built := .gap :: s.built }).2
      trailing := f.trailing
      valid := f.valid_of_le (by simp [hf.made]) }
  have hinner : Follows inner { s with built := [] } a.flush :=
    ⟨hf.view, hf.taken, hf.opened, rfl, hf.pending, hf.length, hf.trivia, hf.items⟩
  obtain ⟨b, hb, hfollows⟩ := hrun hinner
  refine ⟨b, hb, ?_⟩
  have hw : f.woven (s.enclose run) =
      ((f.woven { s with built := .gap :: s.built }).1 ++ (inner.woven (run { s with built := [] })).1,
        (inner.woven (run { s with built := [] })).2) := by
    simp [State.enclose, Scope.woven, inner, weaveAll_append, weaveAll]
  refine ⟨hfollows.view, hfollows.taken, hfollows.opened, ?_, ?_, ?_, ?_, hfollows.items⟩
  · rw [hw, hfollows.made]
    simp [inner, hf.made]
  · rw [hw]
    exact hfollows.pending
  · rw [hw]
    exact hfollows.length
  · rw [hw]
    exact hfollows.trivia

theorem within (h : Follows f s a) (k : Kind) (run : State → State)
    (assemble : Assembly → Option Assembly)
    (hrun : ∀ {g : Scope} {a : Assembly}, g.base = f.base → Follows g s a →
      ∃ b, assemble a = some b ∧ Follows g (run s) b) :
    ∃ b, a.within k f.base.length assemble = some b ∧ Follows f ((run s).wrap k) b := by
  have hvalid : a.builder.isValid f.base.length = true := by
    have := f.valid
    simp [Builder.isValid, h.made, h.opened, this]
  let inner : Scope := { f with opened := (k, f.base.length) :: f.opened, valid := by simp }
  have hinner : Follows inner s
    { a with builder := { a.builder with opened := (k, f.base.length) :: a.builder.opened } } :=
    ⟨h.view, h.taken, by simp [inner, h.opened], h.made, h.pending, h.length, h.trivia, h.items⟩
  obtain ⟨b, hb, hfollows⟩ := hrun (g := inner) rfl hinner
  have hw : f.woven ((run s).wrap k) = ([.node k (f.woven (run s)).1], (f.woven (run s)).2) := by
    simp [State.wrap, Scope.woven, weaveAll, weave]
  refine ⟨{ b with builder := { opened := f.opened, made := .node k (f.woven (run s)).1 :: f.base } }, ?_, ?_⟩
  · have hmade : b.builder.made = (f.woven (run s)).1.reverse ++ f.base := hfollows.made
    have hopened : b.builder.opened = (k, f.base.length) :: f.opened := hfollows.opened
    simp [Assembly.within, Builder.startAt?, hvalid, hb, Builder.finishNode?, hopened, hmade]
  · refine ⟨hfollows.view, hfollows.taken, rfl, ?_, ?_, ?_, ?_, hfollows.items⟩
    · simp [hw]
    · rw [hw]
      exact hfollows.pending
    · rw [hw]
      exact hfollows.length
    · rw [hw]
      exact hfollows.trivia

theorem complain (h : Follows f s a) (fault : GrammarFault) : Follows f (s.complain fault) a :=
  ⟨h.view, h.taken, h.opened, h.made, h.pending, h.length, h.trivia, h.items⟩

theorem takeToken (h : Follows f s a) : Follows f s.take (a.take (·.toToken)) :=
  h.take (·.toToken)

theorem takeAs (h : Follows f s a) (k : Kind) :
    Follows f (s.takeAs k) (a.take (fun i => ⟨k, i.text⟩)) :=
  h.take (fun i => ⟨k, i.text⟩)

theorem setAside (h : Follows f s a) (before : Nat) :
    ∃ b, a.setAside before = some b ∧ Follows f (s.setAside before) b := by
  unfold Assembly.setAside State.setAside
  rw [h.taken, h.rest_eq]
  split
  · refine h.enclose _ (fun place a => a.within .error place fun a => some (a.take (·.toToken))) ?_
    intro g t c hc
    exact hc.within .error (fun t => (t.complain (.stray (t.kindAt 0))).take) _
      (fun _ hd => ⟨_, rfl, (hd.complain _).takeToken⟩)
  · exact ⟨a, rfl, h⟩

section Loops

variable {c : Cond} {run : State → State} {assemble : Assembly → Option Assembly}

theorem repeatWhile (hrun : ∀ {s : State} {a : Assembly}, Follows f s a →
      ∃ b, assemble a = some b ∧ Follows f (run s) b) (n : Nat) (h : Follows f s a) :
    ∃ b, Assembly.repeatWhile c assemble n a = some b ∧ Follows f (State.repeatWhile c run n s) b := by
  induction n generalizing s a with
  | zero => exact ⟨a, rfl, h⟩
  | succ n ih =>
    rw [Assembly.repeatWhile, State.repeatWhile, h.view]
    split
    · obtain ⟨b, hb, hfollows⟩ := hrun h
      rw [hb]
      exact ih hfollows
    · exact ⟨a, rfl, h⟩

theorem repeatCommas (hrun : ∀ {s : State} {a : Assembly}, Follows f s a →
      ∃ b, assemble a = some b ∧ Follows f (run s) b) (strict : Bool) (n : Nat) (h : Follows f s a) :
    ∃ b, Assembly.repeatCommas strict c assemble n a = some b ∧
      Follows f (State.repeatCommas strict c run n s) b := by
  induction n generalizing s a with
  | zero => exact ⟨a, rfl, h⟩
  | succ n ih =>
    rw [Assembly.repeatCommas, State.repeatCommas, h.view]
    split
    · obtain ⟨b, hb, hfollows⟩ := hrun h
      rw [hb]
      simp only [Option.bind_some, hfollows.view, h.taken]
      split
      · exact ih hfollows.takeToken
      · split
        · exact hfollows.setAside s.taken
        · exact ⟨b, rfl, hfollows⟩
    · exact ⟨a, rfl, h⟩

end Loops

end Follows

theorem Action.follows {σ : Type} {call : σ → State → State}
    {assemble : σ → Nat → Assembly → Option Assembly}
    (hcall : ∀ g {f : Scope} {s : State} {a : Assembly}, Follows f s a →
      ∃ b, assemble g f.base.length a = some b ∧ Follows f (call g s) b)
    (x : Action σ) {f : Scope} {s : State} {a : Assembly} (h : Follows f s a) :
    ∃ b, x.assemble assemble f.base.length a = some b ∧ Follows f (x.run call s) b := by
  induction x generalizing f s a with
  | skip => exact ⟨a, rfl, h⟩
  | take => exact ⟨_, rfl, h.takeToken⟩
  | takeAs k => exact ⟨_, rfl, h.takeAs k⟩
  | complain fault => exact ⟨a, rfl, h.complain fault⟩
  | seq x y ihx ihy =>
    obtain ⟨b, hb, hx⟩ := ihx h
    obtain ⟨c, hc, hy⟩ := ihy hx
    exact ⟨c, by rw [Action.assemble, hb]; exact hc, hy⟩
  | scope x ih => exact h.enclose _ (x.assemble assemble) ih
  | wrap k x ih =>
    refine h.within k _ (x.assemble assemble f.base.length) ?_
    intro g b hg hb
    rw [← hg]
    exact ih hb
  | branch c x y ihx ihy =>
    rw [Action.assemble, Action.run, h.view]
    split
    · exact ihx h
    · exact ihy h
  | loop c x ih =>
    rw [Action.assemble, Action.run, h.rest_eq]
    exact Follows.repeatWhile ih _ h
  | commas strict c x ih =>
    rw [Action.assemble, Action.run, h.rest_eq]
    exact Follows.repeatCommas ih strict _ h
  | progress x ih =>
    obtain ⟨b, hb, hx⟩ := ih h
    obtain ⟨c, hc, hset⟩ := hx.setAside s.taken
    exact ⟨c, by rw [Action.assemble, hb, h.taken]; exact hc, hset⟩
  | inQuery x ih =>
    have hq : a.queries = s.queries := congrArg View.queries h.view
    have hin : Follows f { s with queries := s.queries + 1 } { a with queries := a.queries + 1 } :=
      ⟨by simp [hq, h.rest_eq], h.taken, h.opened, h.made, h.pending, h.length, h.trivia, h.items⟩
    obtain ⟨b, hb, hx⟩ := ih hin
    refine ⟨{ b with queries := a.queries }, by rw [Action.assemble, hb]; rfl, ?_⟩
    exact ⟨by simp [hq, hx.rest_eq, Action.run], hx.taken, hx.opened, hx.made, hx.pending, hx.length, hx.trivia,
      hx.items⟩
  | call g => exact hcall g h

theorem Action.follows_named {σ : Type} (rule : σ → Action σ) (n : Nat) (g : σ) {f : Scope} {s : State}
    {a : Assembly} (h : Follows f s a) :
    ∃ b, assembleNamed rule n g f.base.length a = some b ∧ Follows f (runNamed rule n g s) b := by
  induction n generalizing g f s a with
  | zero => exact ⟨a, rfl, h⟩
  | succ n ih => exact Action.follows (fun g _ _ _ hg => ih g hg) (rule g) h

def Scope.whole (tokens : List Token) : Scope where
  opened := [(.compilationUnit, 0)]
  base := []
  gaps := (Group.split tokens).1.map (·.before)
  trailing := (Group.split tokens).2
  valid := rfl

theorem follows_whole (tokens : List Token) :
    Follows (.whole tokens) { rest := Group.items (Group.split tokens).1 }
      { rest := Group.items (Group.split tokens).1, pending := tokens
        builder := { opened := [(.compilationUnit, 0)] } } := by
  have hlen : (Group.split tokens).1.length = (Group.items (Group.split tokens).1).length := by
    have h := congrArg List.length (Group.map_toToken_items (Group.split tokens).1)
    simpa using h.symm
  refine ⟨rfl, rfl, rfl, rfl, ?_, ?_, ?_, fun i hi => Group.isTrivia_items hi⟩
  · simp only [Scope.woven, Scope.whole, List.reverse_nil, weaveAll]
    rw [Group.map_toToken_items, Group.stitch_flatten, Group.flatten_split]
  · simpa [Scope.woven, Scope.whole, weaveAll] using hlen
  · intro g hg t ht
    simp only [Scope.woven, Scope.whole, List.reverse_nil, weaveAll, List.mem_map] at hg
    obtain ⟨u, hu, rfl⟩ := hg
    exact (Group.split_spec tokens u hu).1 t ht

theorem assembled?_eq (tokens : List Token) :
    assembled? tokens = some (Parse.weave (Group.split tokens).1 (Group.split tokens).2
      (outline (Group.items (Group.split tokens).1)).1) := by
  obtain ⟨a, ha, hfollows⟩ := Action.follows_named rule (depth (Group.items (Group.split tokens).1))
    .compilationUnit (follows_whole tokens)
  have hpending : a.pending = (Group.split tokens).2 := by
    rw [hfollows.pending, rest_outline]
    cases (Scope.woven _ _).2 <;> rfl
  have hmade : a.builder.made = (weaveAll (outline (Group.items (Group.split tokens).1)).1
      ((Group.split tokens).1.map (·.before))).1.reverse := by
    rw [hfollows.made, Scope.whole, List.append_nil]
    rfl
  have hopened : a.builder.opened = [(.compilationUnit, 0)] := hfollows.opened
  have hstart : Builder.startAt? {} 0 .compilationUnit =
      some { opened := [(.compilationUnit, 0)] } := rfl
  have hrun : Action.assembleNamed rule (depth (Group.items (Group.split tokens).1)) .compilationUnit 0
      { rest := Group.items (Group.split tokens).1, pending := tokens
        builder := { opened := [(.compilationUnit, 0)] } } = some a := ha
  have hfinish : (a.builder.tokens a.pending).finishNode? = some { made := [Parse.weave (Group.split tokens).1
      (Group.split tokens).2 (outline (Group.items (Group.split tokens).1)).1] } := by
    rw [Builder.tokens_eq, hopened, Builder.finishNode?_outermost]
    simp [hmade, hpending, Parse.weave]
  simp only [assembled?, hstart, hrun, hfinish, Option.bind_eq_bind, Option.bind_some]
  rfl

end Grammar

/-- Reading a text keeps its tokens: the tree is a compilation unit, its leaves are the tokens of the text
in order, and its text is the text. It can be made in one pass by a builder that refuses no step. -/
theorem parse_keeps_tokens (t : Text) :
    (∃ children, (parse t).tree = .node .compilationUnit children) ∧
      List.Forall₂ Token.Shows ((lex t).map (·.toToken)) (parse t).tree.tokens ∧
      (parse t).tree.text = t ∧
      Grammar.assembled? ((lex t).map (·.toToken)) = some (parse t).tree := by
  refine ⟨⟨_, rfl⟩, shows_tokens_parse t, text_parse t, ?_⟩
  rw [Grammar.assembled?_eq]
  rfl

end Lintel
