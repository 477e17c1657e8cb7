import Lintel.Proofs.ParsingEnds
import Lintel.Proofs.TypeLookahead

/-!
Where a scan finds the end of a type, reading the type stops, and nothing is complained of. Only a bracket before a
comma that does not close as a rank parts the two: the scan stops before it, and the reader takes it.
-/

namespace Lintel.Grammar

open Rule

def Action.Reaches (n : Nat) (P : List Item → Prop) (a : Rule) (Q : List Item → Prop) : Prop :=
  ∀ ⦃s t : State⦄, Runs rule n a s t → P s.rest → s.Quiet t ∧ Q t.rest

theorem State.Quiet.trans {s t u : State} (h : s.Quiet t) (h' : t.Quiet u) : s.Quiet u :=
  Eq.trans h' h

theorem State.quiet_take (s : State) : s.Quiet s.take := by
  unfold Quiet take
  split <;> rfl

namespace Action.Reaches

variable {n : Nat} {P Q R : List Item → Prop} {a b : Rule}

theorem mono {P' Q' : List Item → Prop} (h : Reaches n P a Q) (hP : ∀ l, P' l → P l) (hQ : ∀ l, Q l → Q' l) :
    Reaches n P' a Q' :=
  fun _ _ hrun hs => (h hrun (hP _ hs)).imp_right (hQ _)

theorem of_eq (h : ∀ l, P l → Reaches n (· = l) a Q) : Reaches n P a Q :=
  fun _ _ hrun hs => h _ hs hrun rfl

theorem skip (h : ∀ l, P l → Q l) : Reaches n P .skip Q := by
  rintro s t ⟨⟩ hs
  exact ⟨rfl, h _ hs⟩

theorem take (h : ∀ l, P l → Q l.tail) : Reaches n P .take Q := by
  rintro s t ⟨⟩ hs
  rw [State.rest_take]
  exact ⟨s.quiet_take, h _ hs⟩

theorem expect {k : Kind} (h : ∀ l, P l → headKind l = k ∧ Q l.tail) : Reaches n P (expect k) Q := by
  intro s t hrun hs
  obtain ⟨hk, hr⟩ := h _ hs
  cases hrun with
  | branch_true _ hrun =>
    cases hrun
    exact ⟨s.quiet_take, by rwa [State.rest_take]⟩
  | branch_false hc _ => simp [holds_sees, hk] at hc

theorem append (ha : Reaches n P a Q) (hb : Reaches n Q b R) : Reaches n P (a ++ b) R := by
  rintro s u ⟨⟩ hs
  rename_i t hat hbt
  obtain ⟨hq, ht⟩ := ha hat hs
  exact (hb hbt ht).imp_left hq.trans

theorem scope (h : Reaches n P a Q) : Reaches n P (.scope a) Q := by
  rintro s _ ⟨⟩ hs
  rename_i t hrun
  have hend := h hrun hs
  exact hend

theorem wrap {k : Kind} (h : Reaches n P a Q) : Reaches n P (.wrap k a) Q := by
  rintro s _ ⟨⟩ hs
  rename_i t hrun
  have hend := h hrun hs
  exact hend

theorem node {k : Kind} (h : Reaches n P a Q) : Reaches n P (node k a) Q :=
  h.wrap.scope

theorem branch {c : Cond} (ha : Reaches n (fun l => P l ∧ c.May true l) a Q)
    (hb : Reaches n (fun l => P l ∧ c.May false l) b Q) : Reaches n P (.branch c a b) Q := by
  intro s t hrun hs
  cases hrun with
  | branch_true hc hrun => exact ha hrun ⟨hs, _, hc⟩
  | branch_false hc hrun => exact hb hrun ⟨hs, _, hc⟩

theorem loop {c : Cond} {I : List Item → Prop} (h : Reaches n (fun l => I l ∧ c.May true l) a I) :
    Reaches n I (.loop c a) (fun l => I l ∧ c.May false l) := by
  intro s t hrun hs
  generalize hb : Action.loop c a = b at hrun
  induction hrun with
  | loop_false hc =>
    cases hb
    exact ⟨rfl, hs, _, hc⟩
  | loop_true hc hround _ _ ih =>
    cases hb
    obtain ⟨hq, ht⟩ := h hround ⟨hs, _, hc⟩
    exact (ih h ht rfl).imp_left hq.trans
  | _ => cases hb

theorem commas {c : Cond} {I J : List Item → Prop} (h : Reaches n (fun l => I l ∧ c.May true l) a J)
    (hcomma : ∀ l, headKind l = .comma → J l → I l.tail) :
    Reaches n I (.commas false c a) (fun l => I l ∧ c.May false l ∨ J l ∧ headKind l ≠ .comma) := by
  intro s t hrun hs
  generalize hb : Action.commas false c a = b at hrun
  induction hrun with
  | commas_none hc =>
    cases hb
    exact ⟨rfl, .inl ⟨hs, _, hc⟩⟩
  | @commas_next n _ _ _ s t u hc hround hk _ _ ih =>
    cases hb
    obtain ⟨hq, ht⟩ := h hround ⟨hs, _, hc⟩
    rw [View.kindAt_zero] at hk
    have hI : I t.take.rest := by
      rw [State.rest_take]
      exact hcomma _ hk ht
    exact (ih h hI rfl).imp_left (hq.trans t.quiet_take).trans
  | commas_last hc hround hk _ =>
    cases hb
    rw [View.kindAt_zero] at hk
    exact (h hround ⟨hs, _, hc⟩).imp_right (fun ht => .inr ⟨ht, hk⟩)
  | _ => cases hb

theorem call {g : Symbol} (h : Reaches n P (rule g) Q) : Reaches (n + 1) P (.call g) Q := by
  rintro s t ⟨⟩ hs
  rename_i hrun
  exact h hrun hs

theorem call_zero {g : Symbol} : Reaches 0 P (.call g) Q := by
  rintro s t ⟨⟩

end Action.Reaches

def rankOpens (l : List Item) : Prop :=
  headKind l = .lBracket ∧ secondKind l = .comma

theorem exists_rankEnd?_of_ranksFollow {l : List Item} (hl : ranksFollow l) (hr : ¬ rankOpens (suffixEnd l)) :
    ∃ q, rankEnd? l.tail = some q ∧ suffixEnd q = suffixEnd l := by
  obtain ⟨hb, hnext⟩ := hl
  rw [suffixEnd_head l, if_neg (by simp [hb]), if_pos (by simp [hb])] at hr ⊢
  cases hq : rankEnd? l.tail with
  | some q => exact ⟨q, rfl, rfl⟩
  | none =>
    rw [hq, Option.elim_none] at hr
    obtain hclose | hcomma := hnext
    · rw [rankEnd?_head, show headKind l.tail = .rBracket from hclose] at hq
      cases hq
    · exact absurd ⟨hb, hcomma⟩ hr

theorem afterArgument?_head (l : List Item) : afterArgument? l =
    if headKind l == .comma then argumentsEnd? l.tail else if headKind l == .gt then some l.tail else none := by
  cases l with
  | nil => rfl
  | cons i l => rfl

theorem argumentsEnd?_eq_bind {l : List Item} (hcomma : headKind l ≠ .comma) (hgt : headKind l ≠ .gt) :
    argumentsEnd? l = (typeEnd? l).bind afterArgument? := by
  rw [argumentsEnd?_head, if_neg (by simpa using hcomma), if_neg (by simpa using hgt)]
  exact congrArg _ (funext fun m => (afterArgument?_head m).symm)

theorem not_rankOpens_of_afterArgument? {l r : List Item} (h : afterArgument? l = some r) : ¬ rankOpens l := by
  rintro ⟨hb, -⟩
  rw [afterArgument?_head, hb] at h
  cases h

structure TypesRead (n : Nat) : Prop where
  type : ∀ {m r}, typeEnd? m = some r → ¬ rankOpens r → Action.Reaches n (· = m) declaredType (· = r)
  plain : ∀ {m r}, plainEnd? m = some r → Action.Reaches n (· = m) (.call .plainType) (· = r)
  arguments : ∀ {m r}, headKind m = .lt → argumentsEnd? m.tail = some r →
    Action.Reaches n (· = m) (.call .typeArgumentList) (· = r)
  ranks : ∀ {r}, ¬ rankOpens r →
    Action.Reaches n (fun l => suffixEnd l = r) (.call .arrayRanks) (fun l => suffixEnd l = r)

open Action (Reaches)

theorem reaches_rank {n : Nat} {m q : List Item} (h : rankEnd? m.tail = some q) :
    Reaches n (· = m) (.take ++ .loop (sees [.comma]) .take ++ expect .rBracket) (· = q) := by
  refine (Reaches.append (Reaches.take (Q := fun l => rankEnd? l = some q) ?_)
    (Reaches.loop (Reaches.take ?_))).append (Reaches.expect ?_)
  · rintro _ rfl
    exact h
  · rintro l ⟨hl, v, hc⟩
    have hcomma : headKind l = .comma := by simpa [holds_sees] using hc
    rwa [rankEnd?_head, if_pos (by simp [hcomma])] at hl
  · rintro l ⟨hl, v, hc⟩
    have hcomma : headKind l ≠ .comma := by simpa [holds_sees] using hc
    rw [rankEnd?_head, if_neg (by simpa using hcomma)] at hl
    split at hl
    · rename_i hk
      exact ⟨by simpa using hk, Option.some_inj.mp hl⟩
    · cases hl

theorem reaches_ranks {n : Nat} {r : List Item} (hr : ¬ rankOpens r) :
    Reaches n (fun l => suffixEnd l = r) arrayRanks (fun l => suffixEnd l = r) := by
  refine (Reaches.loop (Reaches.of_eq ?_)).mono (fun _ h => h) (fun _ h => h.1)
  rintro l ⟨rfl, hc⟩
  have hfollow := ((may_rankFollows true l).mp hc).mpr rfl
  obtain ⟨q, hq, hsuffix⟩ := exists_rankEnd?_of_ranksFollow hfollow hr
  refine (reaches_rank hq).node.mono (fun _ h => h) ?_
  rintro _ rfl
  exact hsuffix

theorem reaches_mark {n : Nat} {l : List Item} (hk : headKind l = .question ∨ headKind l = .star) :
    Reaches n (· = l) .take (fun q => suffixEnd q = suffixEnd l) := by
  refine Reaches.take (fun q hq => ?_)
  rw [hq, suffixEnd_head l, if_pos (by simpa using hk)]

namespace TypesRead

variable {n : Nat} (h : TypesRead n)

include h

theorem reaches_segment (m : List Item) : Reaches n (· = m) typeSegment (· = segmentEnd m.tail) := by
  refine Reaches.branch (Reaches.of_eq ?_) (Reaches.of_eq ?_)
  · rintro l ⟨rfl, v, hc⟩
    have hc := (View.argumentsFollow_eq ⟨l, v⟩).symm.trans hc
    rw [Bool.and_eq_true, beq_iff_eq, Option.isSome_iff_exists] at hc
    obtain ⟨hlt, r, hr⟩ := hc
    refine Reaches.node (Reaches.append (Reaches.take (Q := (· = l.tail)) (fun _ h => by rw [h]))
      ((h.arguments hlt hr).mono (fun _ h => h) ?_))
    rintro _ rfl
    simp [segmentEnd, hlt, hr]
  · rintro l ⟨rfl, v, hc⟩
    have hc := (View.argumentsFollow_eq ⟨l, v⟩).symm.trans hc
    refine Reaches.node (Reaches.take ?_)
    rintro _ rfl
    unfold segmentEnd
    split
    · rename_i hlt
      rw [hlt, Bool.true_and, Option.isSome_eq_false_iff, Option.isNone_iff_eq_none] at hc
      rw [hc, Option.getD_none]
    · rfl

theorem reaches_name {m r : List Item} (hr : nameEnd? m = some r) :
    Reaches n (· = m)
      (typeSegment ++ .loop (.and (sees [.dot, .colonColon]) (seesAt 1 [.ident]))
        (.wrap .qualifiedType (.take ++ typeSegment))) (· = r) := by
  have hrest : ∀ {q : List Item}, nameEnd? q = some r → restOfName? (segmentEnd q.tail) = some r := by
    intro q hq
    rw [nameEnd?_head] at hq
    split at hq
    · exact hq
    · cases hq
  refine (h.reaches_segment m).append ((Reaches.loop (I := fun q => restOfName? q = some r)
    (Reaches.of_eq ?_)).mono ?_ ?_)
  · rintro q ⟨hq, v, hc⟩
    have hqual : qualifies q = true := by
      simpa [Cond.holds, holds_sees, holds_seesAt_one, qualifies] using hc
    rw [restOfName?, if_pos hqual] at hq
    refine Reaches.wrap (Reaches.append (Reaches.take (Q := (· = q.tail)) (fun _ h => by rw [h]))
      ((h.reaches_segment q.tail).mono (fun _ h => h) ?_))
    rintro _ rfl
    exact hrest hq
  · rintro _ rfl
    exact hrest hr
  · rintro q ⟨hq, v, hc⟩
    have hqual : qualifies q = false := by
      simpa [Cond.holds, holds_sees, holds_seesAt_one, qualifies] using hc
    simpa [restOfName?, hqual] using hq

theorem reaches_plain {m r : List Item} (hr : plainEnd? m = some r) : Reaches n (· = m) plainType (· = r) := by
  cases m with
  | nil => cases hr
  | cons i l =>
    rw [plainEnd?] at hr
    refine Reaches.scope (Reaches.branch (Reaches.of_eq ?_) (Reaches.branch (Reaches.of_eq ?_) (Reaches.of_eq ?_)))
    · rintro _ ⟨rfl, v, hc⟩
      have hc : i.kind.isPredefinedType = true := hc
      rw [if_pos hc, Option.some_inj] at hr
      refine Reaches.node (Reaches.take ?_)
      rintro _ rfl
      exact hr
    · rintro _ ⟨⟨rfl, v, hc⟩, w, hd⟩
      have hc : i.kind.isPredefinedType = false := hc
      have hi : i.kind = .ident := by simpa [holds_sees, headKind] using hd
      rw [if_neg (by simp [hc]), if_pos (by simp [hi])] at hr
      exact h.reaches_name hr
    · rintro _ ⟨⟨rfl, v, hc⟩, w, hd⟩
      have hc : i.kind.isPredefinedType = false := hc
      have hi : i.kind ≠ .ident := by simpa [holds_sees, headKind] using hd
      simp [hc, hi] at hr

theorem reaches_arguments {m r : List Item} (hm : headKind m = .lt) (hr : argumentsEnd? m.tail = some r) :
    Reaches n (· = m) typeArgumentList (· = r) := by
  refine Reaches.node (((Reaches.expect (Q := fun l => argumentsEnd? l = some r) ?_).append
    (Reaches.commas (J := fun l => afterArgument? l = some r) (Reaches.branch (Reaches.skip ?_) (Reaches.of_eq ?_))
      ?_)).append (Reaches.expect ?_))
  · rintro _ rfl
    exact ⟨hm, hr⟩
  · rintro l ⟨⟨hl, -⟩, v, hc⟩
    have hcomma : headKind l = .comma := by simpa [holds_sees] using hc
    rw [argumentsEnd?_head, if_pos (by simp [hcomma])] at hl
    rwa [afterArgument?_head, if_pos (by simp [hcomma])]
  · rintro l ⟨⟨hl, w, hb⟩, v, hc⟩
    have hcomma : headKind l ≠ .comma := by simpa [holds_sees] using hc
    have hgt : headKind l ≠ .gt := by
      simp only [before, Cond.holds, holds_sees, Bool.and_eq_true] at hb
      simpa using hb.2
    rw [argumentsEnd?_eq_bind hcomma hgt, Option.bind_eq_some_iff] at hl
    obtain ⟨q, hq, hafter⟩ := hl
    refine (h.type hq (not_rankOpens_of_afterArgument? hafter)).mono (fun _ h => h) ?_
    rintro _ rfl
    exact hafter
  · intro l hcomma hl
    rwa [afterArgument?_head, if_pos (by simp [hcomma])] at hl
  · rintro l (⟨hl, v, hc⟩ | ⟨hl, hcomma⟩)
    · have hk : l = [] ∨ headKind l = .gt := by
        simpa [before, Cond.holds, holds_sees, Decidable.or_iff_not_imp_left] using hc
      obtain rfl | hk := hk
      · rw [argumentsEnd?_head, typeEnd?_nil] at hl
        cases hl
      · rw [argumentsEnd?_head, hk] at hl
        exact ⟨hk, Option.some_inj.mp hl⟩
    · rw [afterArgument?_head, if_neg (by simpa using hcomma)] at hl
      split at hl
      · rename_i hk
        exact ⟨by simpa using hk, Option.some_inj.mp hl⟩
      · cases hl

theorem reaches_type {m r : List Item} (hr : typeEnd? m = some r) (hrank : ¬ rankOpens r) :
    Reaches n (· = m) (Rule.type false) (· = r) := by
  rw [typeEnd?_eq, Option.map_eq_some_iff] at hr
  obtain ⟨p, hp, rfl⟩ := hr
  refine Reaches.scope (Reaches.branch (((h.plain hp).mono (fun _ h => h.1) (fun _ h => h)).append
    ((Reaches.loop (I := fun l => suffixEnd l = suffixEnd p) (Reaches.of_eq ?_)).mono ?_ ?_)) ?_)
  · rintro l ⟨hl, v, hc⟩
    rw [← hl] at hrank ⊢
    refine Reaches.branch (Reaches.of_eq ?_) (Reaches.branch (Reaches.of_eq ?_) ?_)
    · rintro _ ⟨rfl, w, hq⟩
      exact (reaches_mark (.inl (by simpa [nullableFollows, holds_sees] using hq))).wrap
    · rintro _ ⟨⟨rfl, -⟩, w, hs⟩
      exact (reaches_mark (.inr (by simpa [pointerFollows, holds_sees] using hs))).wrap
    · refine ((h.ranks hrank).mono ?_ (fun _ h => h)).wrap
      rintro _ ⟨⟨rfl, -⟩, -⟩
      rfl
  · rintro _ rfl
    rfl
  · rintro l ⟨hl, v, hc⟩
    simp only [Cond.holds, nullableFollows, pointerFollows, Bool.false_eq_true, if_false, holds_sees,
      Bool.or_eq_false_iff] at hc
    obtain ⟨hq, hs, hrank⟩ := hc
    have hfollow := (may_rankFollows false l).mp ⟨v, hrank⟩
    rw [← hl, suffixEnd_of_not (by simpa using hq) (by simpa using hs) (by simpa using hfollow)]
  · refine Reaches.of_eq ?_
    rintro l ⟨rfl, v, hc⟩
    simp only [Cond.holds, View.kindAt_zero, Bool.or_eq_false_iff] at hc
    cases l with
    | nil => cases hp
    | cons i l => simp [plainEnd?, show (i.kind == .ident) = false from hc.1,
        show i.kind.isPredefinedType = false from hc.2] at hp

end TypesRead

theorem typesRead (n : Nat) : TypesRead n := by
  induction n with
  | zero => exact ⟨fun _ _ => .call_zero, fun _ => .call_zero, fun _ _ => .call_zero, fun _ => .call_zero⟩
  | succ n ih =>
    exact ⟨fun hr hrank => .call (ih.reaches_type hr hrank), fun hr => .call (ih.reaches_plain hr),
      fun hm hr => .call (ih.reaches_arguments hm hr), fun hr => .call (reaches_ranks hr)⟩

theorem typeEnd?_of_ident {l : List Item} (h : headKind l = .ident)
    (hnext : [Kind.lt, .dot, .colonColon, .question, .star, .lBracket].contains (secondKind l) = false) :
    typeEnd? l = some l.tail := by
  simp only [List.contains_eq_mem, List.mem_cons, List.not_mem_nil, or_false, decide_eq_false_iff_not, not_or,
    secondKind] at hnext
  obtain ⟨hlt, hdot, hcolon, hquestion, hstar, hbracket⟩ := hnext
  have hname : nameEnd? l = some l.tail := by
    simp [nameEnd?_head, h, segmentEnd, restOfName?, qualifies, hlt, hdot, hcolon]
  have hsuffix : suffixEnd l.tail = l.tail := by
    rw [suffixEnd_head]
    simp [hquestion, hstar, hbracket]
  simp [typeEnd?_head, h, hname, hsuffix, Kind.isPredefinedType]

theorem exists_nameEnd? {l : List Item} (h : headKind l = .ident) : ∃ r, nameEnd? l = some r := by
  induction hn : l.length using Nat.strongRecOn generalizing l with
  | ind n ih =>
    rw [nameEnd?_head, if_pos (by simp [h]), restOfName?]
    split
    · rename_i hq
      simp only [qualifies, Bool.and_eq_true, beq_iff_eq] at hq
      refine ih _ ?_ hq.2 rfl
      obtain ⟨i, l, rfl, -⟩ := exists_cons_of_headKind h (by simp)
      have hle := length_segmentEnd l
      rw [← hn, List.length_tail, List.tail_cons, List.length_cons]
      omega
    · exact ⟨_, rfl⟩

def State.ReadsTo (s : State) (a : Rule) (r : List Item) : Prop :=
  ∃ t items, (∀ u, (∃ n, Runs rule n a s u) ↔ u = t) ∧ s.rest = items ++ r ∧ t.rest = r ∧
    t.taken = s.taken + items.length ∧ t.complaints = s.complaints

theorem State.readsTo {s t : State} {n : Nat} {a : Rule} {r : List Item} (hrun : Runs rule n a s t)
    (hreach : Action.Reaches n (· = s.rest) a (· = r)) : s.ReadsTo a r := by
  obtain ⟨hq, rfl⟩ := hreach hrun rfl
  obtain ⟨-, -, items, -, hrest, htaken, -⟩ := hrun.advances
  refine ⟨t, items, fun u => ⟨?_, ?_⟩, hrest, rfl, htaken, hq⟩
  · rintro ⟨m, h⟩
    exact h.deterministic hrun
  · rintro rfl
    exact ⟨n, hrun⟩

theorem State.afterType_eq (s : State) (n : Nat) : s.afterType n = typeEnd? (s.rest.drop n) :=
  rfl

theorem exists_runs_declaredType (s : State) : ∃ n t, Runs rule n declaredType s t := by
  have hrank := Symbol.rankWhen_lt (Symbol.starts (.type false) (s.kindAt 0)) (.type false)
  exact ⟨_, _, Runs.ends_runNamed (64 * s.rest.length + 64) _ s (by omega)⟩

theorem State.readsTo_declaredType {s : State} {r : List Item} (h : typeEnd? s.rest = some r) (hr : ¬ rankOpens r) :
    s.ReadsTo declaredType r := by
  obtain ⟨n, t, hrun⟩ := exists_runs_declaredType s
  exact readsTo hrun ((typesRead n).type h hr)

theorem State.readsTo_take_declaredType {s : State} {r : List Item} (h : typeEnd? s.rest.tail = some r)
    (hr : ¬ rankOpens r) : s.ReadsTo (.take ++ declaredType) r := by
  obtain ⟨n, t, hrun⟩ := exists_runs_declaredType s.take
  exact readsTo (.seq (.take s) hrun)
    (Reaches.append (Reaches.take (fun _ hl => by rw [hl])) ((typesRead n).type h hr))

/-- Where an action is run, it runs another one first. -/
inductive Begins (v : View) : Rule → Rule → Prop
  | refl (a : Rule) : Begins v a a
  | seq {a b p : Rule} : Begins v a p → Begins v (a ++ b) p
  | scope {a p : Rule} : Begins v a p → Begins v (.scope a) p
  | wrap {k : Kind} {a p : Rule} : Begins v a p → Begins v (.wrap k a) p
  | branch_true {c : Cond} {a b p : Rule} : c.holds v = true → Begins v a p → Begins v (.branch c a b) p
  | branch_false {c : Cond} {a b p : Rule} : c.holds v = false → Begins v b p → Begins v (.branch c a b) p
  | call {g : Symbol} {p : Rule} : Begins v (rule g) p → Begins v (.call g) p

namespace Begins

variable {v : View} {a p : Rule}

theorem node {k : Kind} (h : Begins v a p) : Begins v (node k a) p :=
  h.wrap.scope

end Begins

inductive TypedConstruct where
  | cast | localVariable | argumentVariable
  | member (m : TypedMember)

namespace TypedConstruct

def chosen : TypedConstruct → View → Bool
  | cast, v => v.kindAt 0 == .lParen && v.startsCast
  | localVariable, v => v.startsLocalDeclaration && !v.startsLocalFunction
  | argumentVariable, v => v.startsArgumentDeclaration
  | member .field, v => v.typedMember == .field && (v.afterType 0).any (headKind · == .ident)
  | member m, v => v.startsType 0 && v.typedMember == m

def choice : TypedConstruct → Rule
  | cast => .call .unary
  | localVariable => .call .statement
  | argumentVariable => .branch (.look View.startsArgumentDeclaration) (declaredType ++ .take) expression
  | member _ => typedMember

def opening : TypedConstruct → Rule
  | cast => .take ++ declaredType
  | _ => declaredType

def ahead : TypedConstruct → Nat
  | cast => 1
  | _ => 0

def goesOn : TypedConstruct → List Item → Bool
  | cast, l => headKind l == .rParen
  | localVariable, l => headKind l == .ident && [.eq, .semicolon, .comma].contains (secondKind l)
  | argumentVariable, l => headKind l == .ident && [.comma, .rParen].contains (secondKind l)
  | member .indexer, l => headKind l == .thisKw
  | member .operator, l => headKind l == .operatorKw
  | member _, l => headKind l == .ident

theorem not_rankOpens_of_goesOn {x : TypedConstruct} {l : List Item} (h : x.goesOn l = true) : ¬ rankOpens l := by
  rintro ⟨hb, -⟩
  unfold goesOn at h
  split at h <;> simp [hb] at h

theorem readsTo_opening {x : TypedConstruct} {s : State} {r : List Item} (h : s.afterType x.ahead = some r)
    (hr : ¬ rankOpens r) : s.ReadsTo x.opening r := by
  cases x with
  | cast =>
    rw [State.afterType_eq, ahead, List.drop_one] at h
    exact State.readsTo_take_declaredType h hr
  | localVariable | argumentVariable | member m => exact State.readsTo_declaredType h hr

theorem exists_afterType_of_startsType {v : View} (h : v.startsType 0 = true) : ∃ r, v.afterType 0 = some r := by
  simp only [View.startsType, View.kindAt_zero, Bool.or_eq_true, beq_iff_eq] at h
  change ∃ r, typeEnd? v.rest = some r
  rw [typeEnd?_head]
  split
  · exact ⟨_, rfl⟩
  · rename_i hpre
    have hi := h.resolve_right hpre
    obtain ⟨r, hr⟩ := exists_nameEnd? hi
    simp [hi, hr]

theorem goesOn_of_typedMember {m : TypedMember} {v : View} {r : List Item} (hr : v.afterType 0 = some r)
    (hm : v.typedMember = m) (hfield : m ≠ .field) : (member m).goesOn r = true := by
  simp only [View.typedMember, hr, Option.getD_some] at hm
  split at hm
  · rename_i hk
    subst hm
    simp [goesOn, hk]
  · rename_i hk
    subst hm
    simp [goesOn, hk]
  · rename_i hk
    obtain ⟨hindexer, hoperator⟩ := namedMember_ne .ident r.tail
    rw [hm] at hindexer hoperator
    cases m with
    | indexer => exact absurd rfl hindexer
    | operator => exact absurd rfl hoperator
    | method | property | explicitIndexer | field => simp [goesOn, hk]
  · exact absurd hm.symm hfield

theorem exists_afterType_of_chosen {x : TypedConstruct} {v : View} (h : x.chosen v = true) :
    ∃ r, v.afterType x.ahead = some r ∧ x.goesOn r = true := by
  unfold chosen at h
  split at h
  · rename_i v
    simp only [View.startsCast, Bool.and_eq_true] at h
    obtain ⟨-, h⟩ := h
    split at h
    · cases h
    · rename_i r hr
      simp only [Bool.and_eq_true] at h
      exact ⟨r, hr, h.1.1⟩
  · rename_i v
    simp only [View.startsLocalDeclaration, Bool.and_eq_true, Option.any_eq_true] at h
    obtain ⟨⟨-, r, hr, hk, hnext⟩, -⟩ := h
    refine ⟨r, hr, ?_⟩
    split at hnext <;> simp_all [goesOn]
  · rename_i v
    simp only [View.startsArgumentDeclaration, Option.any_eq_true, Bool.and_eq_true] at h
    obtain ⟨r, hr, hk, hnext⟩ := h
    refine ⟨r, hr, ?_⟩
    split at hnext <;> simp_all [goesOn]
  · rename_i v
    simp only [Bool.and_eq_true, Option.any_eq_true] at h
    obtain ⟨-, r, hr, hk⟩ := h
    exact ⟨r, hr, hk⟩
  · rename_i m v hfield
    simp only [Bool.and_eq_true, beq_iff_eq] at h
    obtain ⟨r, hr⟩ := exists_afterType_of_startsType h.1
    exact ⟨r, hr, goesOn_of_typedMember hr h.2 (by simpa using hfield)⟩

theorem begins_localVariable {v : View} (h : localVariable.chosen v = true) :
    Begins v localVariable.choice localVariable.opening := by
  obtain ⟨r, hr, hon⟩ := exists_afterType_of_chosen h
  have hstart : headKind v.rest = .ident ∨ (headKind v.rest).isPredefinedType = true :=
    headKind_of_typeEnd? hr
  have hsees : ∀ ks : List Kind, ks.all (fun k => k != .ident && !k.isPredefinedType) = true →
      (sees ks).holds v = false := by
    intro ks hks
    rw [holds_sees, Bool.eq_false_iff]
    intro hc
    have hk := List.all_eq_true.mp hks _ (List.contains_iff_mem.mp hc)
    simp only [Bool.and_eq_true, bne_iff_ne, Bool.not_eq_true'] at hk
    obtain hi | hpre := hstart
    · exact hk.1 hi
    · simp [hk.2] at hpre
  simp only [chosen, Bool.and_eq_true, Bool.not_eq_true'] at h
  apply Begins.call
  repeat refine Begins.branch_false (hsees _ rfl) ?_
  refine Begins.branch_false (Bool.and_eq_false_iff.mpr (.inl (hsees _ rfl))) ?_
  refine Begins.branch_false (hsees _ rfl) (Begins.branch_false ?_ (Begins.branch_false (hsees _ rfl)
    (Begins.branch_false h.2 (Begins.branch_true h.1 ?_))))
  · -- the word before a jump is no type, since no name follows it
    rw [Bool.eq_false_iff]
    intro hyield
    simp only [Cond.holds, holds_seesAt_one, View.isName, View.kindAt_zero, Bool.and_eq_true, beq_iff_eq] at hyield
    obtain ⟨⟨hi, -⟩, hnext⟩ := hyield
    have hnext : secondKind v.rest = .returnKw ∨ secondKind v.rest = .breakKw := by simpa using hnext
    have hend := typeEnd?_of_ident hi (by obtain h | h := hnext <;> rw [h] <;> rfl)
    obtain rfl : v.rest.tail = r := Option.some_inj.mp (hend.symm.trans hr)
    simp only [goesOn, Bool.and_eq_true, beq_iff_eq] at hon
    have hon : secondKind v.rest = .ident := hon.1
    simp [hon] at hnext
  · exact Begins.node (.seq (.call (.node (.seq (.refl _)))))

theorem begins_opening {x : TypedConstruct} {v : View} (h : x.chosen v = true) :
    Begins v x.choice x.opening := by
  cases x with
  | cast =>
    simp only [chosen, Bool.and_eq_true, beq_iff_eq] at h
    obtain ⟨hk, hcast⟩ := h
    refine .call (.branch_false ?_ (.branch_false ?_ (.branch_true ?_ (.node (.seq (.seq (.refl _)))))))
    · simp [sees, Cond.holds, hk]
    · simp [awaits, Cond.holds, View.isName, hk]
    · simp [sees, Cond.holds, hk, hcast]
  | localVariable => exact begins_localVariable h
  | argumentVariable => exact .branch_true h (.seq (.refl _))
  | member m =>
    have hm : v.typedMember = m := by
      unfold chosen at h
      split at h <;> simp_all
    have htest : ∀ m', (isTyped m').holds v = (m == m') := fun m' => by rw [← hm]; rfl
    cases m with
    | indexer => exact .branch_true (htest _) (.wrap (.seq (.seq (.seq (.refl _)))))
    | operator => exact .branch_false (htest _) (.branch_true (htest _) (.wrap (.seq (.seq (.seq (.seq (.refl _)))))))
    | method =>
      exact .branch_false (htest _) (.branch_false (htest _) (.branch_true (htest _)
        (.wrap (.seq (.seq (.seq (.refl _)))))))
    | property =>
      exact .branch_false (htest _) (.branch_false (htest _) (.branch_false (htest _) (.branch_true (htest _)
        (.wrap (.seq (.seq (.refl _)))))))
    | explicitIndexer =>
      exact .branch_false (htest _) (.branch_false (htest _) (.branch_false (htest _) (.branch_false (htest _)
        (.branch_true (htest _) (.wrap (.seq (.seq (.seq (.refl _)))))))))
    | field =>
      exact .branch_false (htest _) (.branch_false (htest _) (.branch_false (htest _) (.branch_false (htest _)
        (.branch_false (htest _) (.wrap (.seq (.call (.node (.seq (.refl _))))))))))

end TypedConstruct

/-- Reading a type stops where a scan has found its end, having taken what the scan passed over, and complains of
nothing, unless a bracket and a comma stand there. A construct that was chosen since a scan found a type begins by
reading it, and then goes on with what was seen after it. -/
theorem type_read_as_scanned (s : State) :
    (∀ r, s.afterType 0 = some r → ¬ rankOpens r → s.ReadsTo declaredType r) ∧
    ∀ x : TypedConstruct, x.chosen s.toView = true →
      Begins s.toView x.choice x.opening ∧
      ∃ r, s.afterType x.ahead = some r ∧ x.goesOn r = true ∧ s.ReadsTo x.opening r := by
  refine ⟨fun r h hr => State.readsTo_declaredType h hr, fun x hx => ⟨TypedConstruct.begins_opening hx, ?_⟩⟩
  obtain ⟨r, hr, hon⟩ := TypedConstruct.exists_afterType_of_chosen hx
  exact ⟨r, hr, hon, TypedConstruct.readsTo_opening hr (TypedConstruct.not_rankOpens_of_goesOn hon)⟩

theorem type_read_as_scanned_qualified :
    let s : State := { rest := itemsOf "A<B?[,]>.C e;".toList }
    (s.afterType 0 = some (s.rest.drop 10) ∧ ¬ rankOpens (s.rest.drop 10) ∧ s.ReadsTo declaredType (s.rest.drop 10)) ∧
    TypedConstruct.localVariable.chosen s.toView = true ∧ Begins s.toView (.call .statement) declaredType ∧
      ∃ r, s.afterType 0 = some r ∧ headKind r = .ident ∧ s.ReadsTo declaredType r := by
  intro s
  obtain ⟨hscan, hend, hchosen⟩ : s.afterType 0 = some (s.rest.drop 10) ∧ ¬ rankOpens (s.rest.drop 10) ∧
      TypedConstruct.localVariable.chosen s.toView = true := by
    unfold rankOpens
    decide +kernel
  obtain ⟨hread, hconstruct⟩ := type_read_as_scanned s
  obtain ⟨hbegins, r, hr, hon, hto⟩ := hconstruct .localVariable hchosen
  rw [TypedConstruct.goesOn, Bool.and_eq_true, beq_iff_eq] at hon
  exact ⟨⟨hscan, hend, hread _ hscan hend⟩, hchosen, hbegins, r, hr, hon.1, hto⟩

end Lintel.Grammar
