import Lintel.Proofs.NodeContents

namespace Lintel.Grammar

open Rule

def rankEnd? (l : List Item) : Option (List Item) :=
  (scanRank l).map (·.1)

def suffixEnd (l : List Item) : List Item :=
  (scanSuffixes l).1

def typeEnd? (l : List Item) : Option (List Item) :=
  (scanType l).map (·.1)

def nameEnd? (l : List Item) : Option (List Item) :=
  (scanName l).map (·.1)

def argumentsEnd? (l : List Item) : Option (List Item) :=
  (scanArguments l).map (·.1)

theorem rankEnd?_cons (i : Item) (l : List Item) :
    rankEnd? (i :: l) =
      if i.kind == .comma then rankEnd? l else if i.kind == .rBracket then some l else none := by
  simp only [rankEnd?, scanRank]
  split
  · simp [Function.comp_def]
  · split <;> rfl

theorem suffixEnd_nil : suffixEnd [] = [] := by
  rw [suffixEnd, scanSuffixes]

theorem suffixEnd_cons (i : Item) (l : List Item) :
    suffixEnd (i :: l) =
      if i.kind == .question || i.kind == .star then suffixEnd l
      else if i.kind == .lBracket then (rankEnd? l).elim (i :: l) suffixEnd
      else i :: l := by
  rw [suffixEnd, scanSuffixes]
  split
  · rfl
  · split
    · unfold rankEnd?
      cases h : scanRank l with
      | none => rfl
      | some r => rfl
    · rfl

theorem typeEnd?_nil : typeEnd? [] = none := by
  rw [typeEnd?, scanType]
  rfl

theorem typeEnd?_cons (i : Item) (l : List Item) :
    typeEnd? (i :: l) =
      if i.kind.isPredefinedType then some (suffixEnd l)
      else if i.kind == .ident then (nameEnd? (i :: l)).map suffixEnd
      else none := by
  rw [typeEnd?, scanType]
  split
  · rfl
  · split
    · unfold nameEnd?
      cases h : scanName (i :: l) with
      | none => rfl
      | some r => rfl
    · rfl

theorem headKind_of_typeEnd? {l r : List Item} (h : typeEnd? l = some r) :
    headKind l = .ident ∨ (headKind l).isPredefinedType = true := by
  cases l with
  | nil => simp [typeEnd?_nil] at h
  | cons i l =>
    rw [typeEnd?_cons] at h
    by_cases hp : i.kind.isPredefinedType = true
    · exact .inr hp
    · by_cases hi : i.kind = .ident
      · exact .inl hi
      · simp [hp, hi] at h

theorem namedMember_ne (last : Kind) (l : List Item) :
    namedMember last l ≠ .indexer ∧ namedMember last l ≠ .operator := by
  have hkind : ∀ last k, namedMember.ofKind last k ≠ .indexer ∧ namedMember.ofKind last k ≠ .operator := by
    intro last k
    unfold namedMember.ofKind
    split
    case h_5 => split <;> decide
    all_goals decide
  fun_induction namedMember last l with
  | case1 last i j l hc ih => exact ih
  | case2 | case3 => exact hkind _ _
  | case4 => decide

theorem headKind_of_typedMember {v : View} {r : List Item} (hr : typeEnd? v.rest = some r) :
    (v.typedMember = .indexer → headKind r = .thisKw) ∧ (v.typedMember = .operator → headKind r = .operatorKw) := by
  have hafter : v.afterType 0 = some r := hr
  rw [View.typedMember, hafter, Option.getD_some]
  split
  · rename_i hk
    exact ⟨fun _ => hk, by simp⟩
  · rename_i hk
    exact ⟨by simp, fun _ => hk⟩
  · exact ⟨fun h => absurd h (namedMember_ne _ _).1, fun h => absurd h (namedMember_ne _ _).2⟩
  · simp

def qualifies (l : List Item) : Bool :=
  (headKind l == .dot || headKind l == .colonColon) && secondKind l == .ident

def segmentEnd (l : List Item) : List Item :=
  if headKind l == .lt then (argumentsEnd? l.tail).getD l else l

def restOfName? (l : List Item) : Option (List Item) :=
  if qualifies l then nameEnd? l.tail else some l

theorem nameEnd?_cons {i : Item} (l : List Item) (hi : i.kind = .ident) :
    nameEnd? (i :: l) = restOfName? (segmentEnd l) := by
  rw [nameEnd?, scanName.eq_def]
  simp only [hi, beq_self_eq_true, if_true]
  by_cases hlt : headKind l == .lt
  · simp only [if_pos hlt]
    cases l with
    | nil => simp [headKind] at hlt
    | cons j m =>
      have hj : headKind (j :: m) = .lt := by simpa using hlt
      have hseg : segmentEnd (j :: m) = (argumentsEnd? m).getD (j :: m) := by
        simp [segmentEnd, hj]
      rw [hseg]
      dsimp only
      split
      · rename_i ha
        have hnone : argumentsEnd? m = none := by simp [argumentsEnd?, ha]
        simp [restOfName?, qualifies, hnone, hj]
      · rename_i r ha
        have hsome : argumentsEnd? m = some r.1 := by simp [argumentsEnd?, ha]
        simp only [hsome, Option.getD_some, restOfName?, qualifies]
        split
        · simp [nameEnd?, Function.comp_def]
        · rfl
  · have hseg : segmentEnd l = l := by simp [segmentEnd, hlt]
    rw [hseg]
    simp only [if_neg hlt]
    split
    · rename_i hq
      rw [restOfName?, if_pos (show qualifies l = true from hq)]
      simp [nameEnd?, Function.comp_def]
    · rename_i hq
      rw [restOfName?, if_neg (show ¬ qualifies l = true from hq)]
      rfl

theorem argumentsEnd?_cons (i : Item) (l : List Item) :
    argumentsEnd? (i :: l) =
      if i.kind == .comma then argumentsEnd? l
      else if i.kind == .gt then some l
      else
        match typeEnd? (i :: l) with
        | some (j :: m) => if j.kind == .comma then argumentsEnd? m else if j.kind == .gt then some m else none
        | _ => none := by
  rw [argumentsEnd?, scanArguments]
  split
  · simp [argumentsEnd?, Function.comp_def]
  · split
    · rfl
    · unfold typeEnd?
      split
      · rename_i h
        rw [h]
        rfl
      · rename_i h
        rw [h]
        rfl
      · rename_i j m h he
        rw [he]
        simp only [Option.map_some]
        split
        · simp [argumentsEnd?, Function.comp_def]
        · split <;> rfl

theorem View.kindAt_zero (v : View) : v.kindAt 0 = headKind v.rest := by
  cases h : v.rest <;> simp [View.kindAt, headKind, h]

theorem View.kindAt_one (v : View) : v.kindAt 1 = secondKind v.rest := by
  match h : v.rest with
  | [] => simp [View.kindAt, secondKind, headKind, h]
  | [i] => simp [View.kindAt, secondKind, headKind, h]
  | i :: j :: l => simp [View.kindAt, secondKind, headKind, h]

theorem View.argumentsFollow_eq (v : View) :
    v.argumentsFollow = (headKind v.rest.tail == .lt && (argumentsEnd? v.rest.tail.tail).isSome) := by
  have hdrop : v.rest.drop 2 = v.rest.tail.tail := by rw [← List.drop_one, ← List.drop_one, List.drop_drop]
  have hsome : ∀ l, (scanArguments l).isSome = (argumentsEnd? l).isSome := by simp [argumentsEnd?]
  simp only [View.argumentsFollow, View.kindAt_one, secondKind, hsome, hdrop]

theorem holds_sees (ks : List Kind) (v : View) : (sees ks).holds v = ks.contains (headKind v.rest) := by
  simp only [sees, Cond.holds, View.kindAt_zero]

theorem holds_seesAt_one (ks : List Kind) (v : View) :
    (seesAt 1 ks).holds v = ks.contains (secondKind v.rest) := by
  simp only [seesAt, Cond.holds, View.kindAt_one]

theorem exists_cons_of_headKind {l : List Item} {k : Kind} (h : headKind l = k) (hk : k ≠ .eof) :
    ∃ i m, l = i :: m ∧ i.kind = k := by
  cases l with
  | nil => exact absurd h.symm hk
  | cons i m => exact ⟨i, m, rfl, h⟩

theorem State.rest_take (s : State) : s.take.rest = s.rest.tail := by
  unfold take
  split
  · rename_i h
    rw [h, List.tail_nil]
  · rename_i i rest h
    rw [h, List.tail_cons]

def Action.Leads (call : Symbol → State → State) (P : List Item → Prop) (a : Rule) (Q : List Item → Prop) :
    Prop :=
  ∀ s : State, P s.rest → s.Quiet (a.run call s) → Q (a.run call s).rest

def Cond.May (c : Cond) (b : Bool) (l : List Item) : Prop :=
  ∃ q, c.holds ⟨l, q⟩ = b

namespace Action.Leads

variable {call : Symbol → State → State} {P Q R : List Item → Prop} {a b : Rule}

theorem mono {P' Q' : List Item → Prop} (h : Leads call P a Q) (hP : ∀ l, P' l → P l) (hQ : ∀ l, Q l → Q' l) :
    Leads call P' a Q' :=
  fun s hs hq => hQ _ (h s (hP _ hs) hq)

theorem of_eq (h : ∀ l, P l → Leads call (· = l) a Q) : Leads call P a Q :=
  fun s hs hq => h s.rest hs s rfl hq

theorem skip (h : ∀ l, P l → Q l) : Leads call P .skip Q :=
  fun _ hs _ => h _ hs

theorem take (h : ∀ l, P l → Q l.tail) : Leads call P .take Q := by
  intro s hs _
  rw [Action.run, State.rest_take]
  exact h _ hs

theorem expect {k : Kind} (hk : k ≠ .eof) (h : ∀ i l, i.kind = k → P (i :: l) → Q l) :
    Leads call P (expect k) Q := by
  intro s hs hq
  simp only [Rule.expect, Action.run, holds_sees] at hq ⊢
  by_cases hc : [k].contains (headKind s.rest) = true
  · rw [if_pos hc, State.rest_take]
    obtain ⟨i, l, hr, hi⟩ := exists_cons_of_headKind (by simpa using hc) hk
    rw [hr] at hs ⊢
    exact h i l hi hs
  · rw [if_neg hc] at hq
    simp [State.Quiet, State.complain] at hq

theorem complain {f : GrammarFault} : Leads call P (.complain f) Q := by
  intro s _ hq
  simp [State.Quiet, Action.run, State.complain] at hq

theorem scope (h : Leads call P a Q) : Leads call P (.scope a) Q :=
  fun s hs hq => h { s with built := [] } hs hq

theorem wrap {k : Kind} (h : Leads call P a Q) : Leads call P (.wrap k a) Q :=
  fun s hs hq => h s hs hq

theorem node {k : Kind} (h : Leads call P a Q) : Leads call P (node k a) Q :=
  h.wrap.scope

theorem branch {c : Cond} (ha : Leads call (fun l => P l ∧ c.May true l) a Q)
    (hb : Leads call (fun l => P l ∧ c.May false l) b Q) : Leads call P (.branch c a b) Q := by
  intro s hs hq
  rw [Action.run] at hq ⊢
  by_cases hc : c.holds s.toView = true
  · rw [if_pos hc] at hq ⊢
    exact ha s ⟨hs, _, hc⟩ hq
  · rw [if_neg hc] at hq ⊢
    exact hb s ⟨hs, _, by simpa using hc⟩ hq

section Steps

variable (hadv : ∀ g (s : State), s.Advances (call g s))

include hadv

theorem append (ha : Leads call P a Q) (hb : Leads call Q b R) : Leads call P (a ++ b) R := by
  intro s hs hq
  obtain ⟨hqa, hqb⟩ := (a.advances hadv s).quiet (b.advances hadv _) hq
  exact hb _ (ha s hs hqa) hqb

theorem loop {c : Cond} {I : List Item → Prop}
    (h : ∀ m, Leads call (fun l => l = m ∧ I l ∧ c.May true l) a (fun l => I l ∧ l.length < m.length)) :
    Leads call I (.loop c a) (fun l => I l ∧ (l = [] ∨ c.May false l)) := by
  have hrun : ∀ n (s : State), s.rest.length ≤ n → I s.rest → s.Quiet (State.repeatWhile c (a.run call) n s) →
      I (State.repeatWhile c (a.run call) n s).rest ∧
        ((State.repeatWhile c (a.run call) n s).rest = [] ∨
          c.May false (State.repeatWhile c (a.run call) n s).rest) := by
    intro n
    induction n with
    | zero => exact fun s hn hs _ => ⟨hs, .inl (List.length_eq_zero_iff.mp (Nat.le_zero.mp hn))⟩
    | succ n ih =>
      intro s hn hs hq
      rw [State.repeatWhile] at hq ⊢
      by_cases hc : c.holds s.toView = true
      · rw [if_pos hc] at hq ⊢
        obtain ⟨hq1, hq2⟩ := (a.advances hadv s).quiet
          (State.steady_advances.repeatWhile (fun t _ => a.advances hadv t) n _) hq
        obtain ⟨hI, hlt⟩ := h s.rest s ⟨rfl, hs, _, hc⟩ hq1
        exact ih _ (by omega) hI hq2
      · rw [if_neg hc]
        exact ⟨hs, .inr ⟨_, by simpa using hc⟩⟩
  exact fun s hs hq => hrun _ s (Nat.le_refl _) hs hq

theorem commas {c : Cond} {I J : List Item → Prop}
    (h : Leads call (fun l => I l ∧ c.May true l) a J)
    (hcomma : ∀ i l, i.kind = .comma → J (i :: l) → I l) :
    Leads call I (.commas false c a)
      (fun l => I l ∧ (l = [] ∨ c.May false l) ∨ J l ∧ headKind l ≠ .comma) := by
  have hrun : ∀ n (s : State), s.rest.length ≤ n → I s.rest →
      s.Quiet (State.repeatCommas false c (a.run call) n s) →
      let l := (State.repeatCommas false c (a.run call) n s).rest
      I l ∧ (l = [] ∨ c.May false l) ∨ J l ∧ headKind l ≠ .comma := by
    intro n
    induction n with
    | zero => exact fun s hn hs _ => .inl ⟨hs, .inl (List.length_eq_zero_iff.mp (Nat.le_zero.mp hn))⟩
    | succ n ih =>
      intro s hn hs hq
      rw [State.repeatCommas] at hq ⊢
      by_cases hc : c.holds s.toView = true
      · simp only [if_pos hc] at hq ⊢
        have ha := a.advances hadv s
        by_cases hk : ((a.run call s).kindAt 0 == .comma) = true
        · simp only [if_pos hk] at hq ⊢
          have htake := State.steady_advances.take (a.run call s)
          have hloop := State.steady_advances.repeatCommas (c := c) (fun t _ => a.advances hadv t) false n
            (a.run call s).take
          obtain ⟨hq1, hq2⟩ := ha.quiet (State.steady_advances.trans htake hloop) hq
          rw [View.kindAt_zero, beq_iff_eq] at hk
          obtain ⟨i, l, hr, hi⟩ := exists_cons_of_headKind hk (by simp)
          have hJ := h s ⟨hs, _, hc⟩ hq1
          have hle := ha.length_le
          refine ih _ ?_ ?_ (htake.quiet hloop hq2).2
          · rw [State.rest_take]
            rw [hr, List.length_cons] at hle
            rw [hr, List.tail_cons]
            omega
          · rw [State.rest_take, hr]
            rw [hr] at hJ
            exact hcomma i l hi hJ
        · simp only [if_neg hk] at hq ⊢
          refine .inr ⟨h s ⟨hs, _, hc⟩ hq, ?_⟩
          rw [← View.kindAt_zero]
          simpa using hk
      · simp only [if_neg hc]
        exact .inl ⟨hs, .inr ⟨_, by simpa using hc⟩⟩
  exact fun s hs hq => hrun _ s (Nat.le_refl _) hs hq

end Steps

end Action.Leads

def afterArgument? : List Item → Option (List Item)
  | [] => none
  | i :: l => if i.kind == .comma then argumentsEnd? l else if i.kind == .gt then some l else none

def plainEnd? : List Item → Option (List Item)
  | [] => none
  | i :: l => if i.kind.isPredefinedType then some l else if i.kind == .ident then nameEnd? (i :: l) else none

theorem typeEnd?_eq (l : List Item) : typeEnd? l = (plainEnd? l).map suffixEnd := by
  cases l with
  | nil => exact typeEnd?_nil
  | cons i l =>
    rw [typeEnd?_cons, plainEnd?]
    split
    · rfl
    · split <;> rfl

theorem length_rankEnd? {l r : List Item} (h : rankEnd? l = some r) : r.length < l.length := by
  obtain ⟨q, -, rfl⟩ := Option.map_eq_some_iff.mp h
  exact q.2

theorem length_argumentsEnd? {l r : List Item} (h : argumentsEnd? l = some r) : r.length < l.length := by
  obtain ⟨q, -, rfl⟩ := Option.map_eq_some_iff.mp h
  exact q.2

theorem length_segmentEnd (l : List Item) : (segmentEnd l).length ≤ l.length := by
  unfold segmentEnd
  split
  · cases h : argumentsEnd? l.tail with
    | none => exact Nat.le_refl _
    | some r =>
      have := length_argumentsEnd? h
      have := length_tail_le l
      rw [Option.getD_some]
      omega
  · exact Nat.le_refl _

def ranksFollow (l : List Item) : Prop :=
  headKind l = .lBracket ∧ (secondKind l = .rBracket ∨ secondKind l = .comma)

theorem may_rankFollows (b : Bool) (l : List Item) : rankFollows.May b l ↔ (ranksFollow l ↔ b = true) := by
  simp only [Cond.May, rankFollows, Cond.holds, holds_sees, holds_seesAt_one, exists_const]
  cases b <;> simp [ranksFollow]

theorem suffixEnd_of_not {l : List Item} (hq : headKind l ≠ .question) (hs : headKind l ≠ .star)
    (hrank : ¬ ranksFollow l) : suffixEnd l = l := by
  cases l with
  | nil => exact suffixEnd_nil
  | cons i l =>
    have hq : i.kind ≠ .question := hq
    have hs : i.kind ≠ .star := hs
    rw [suffixEnd_cons, if_neg (by simp [hq, hs])]
    split
    · rename_i hb
      have hb : i.kind = .lBracket := by simpa using hb
      have hnone : rankEnd? l = none := by
        cases l with
        | nil => rfl
        | cons j m =>
          have hr : j.kind ≠ .rBracket := fun h => hrank ⟨hb, .inl h⟩
          have hc : j.kind ≠ .comma := fun h => hrank ⟨hb, .inr h⟩
          simp [rankEnd?_cons, hr, hc]
      rw [hnone]
      rfl
    · rfl

theorem leads_mark {call : Symbol → State → State} {l : List Item} (hk : headKind l = .question ∨ headKind l = .star) :
    Action.Leads call (· = l) .take (fun r => suffixEnd r = suffixEnd l ∧ r.length < l.length) := by
  refine Action.Leads.take (fun r hr => ?_)
  rw [hr]
  cases l with
  | nil => simp [headKind] at hk
  | cons i l =>
    rw [suffixEnd_cons, if_pos (by simpa [headKind] using hk)]
    exact ⟨rfl, by simp⟩

structure TypeRuns (call : Symbol → State → State) : Prop where
  advances : ∀ g (s : State), s.Advances (call g s)
  type : ∀ m, Action.Leads call (· = m) declaredType (fun l => typeEnd? m = some l)
  plain : ∀ m, Action.Leads call (· = m) (.call .plainType) (fun l => plainEnd? m = some l)
  arguments : ∀ m, Action.Leads call (· = m) (.call .typeArgumentList)
    (fun l => headKind m = .lt ∧ argumentsEnd? m.tail = some l)
  ranks : ∀ m, Action.Leads call (· = m) (.call .arrayRanks)
    (fun l => suffixEnd l = suffixEnd m ∧ (ranksFollow m → l.length < m.length))

namespace TypeRuns

open Action (Leads)

variable {call : Symbol → State → State} (h : TypeRuns call)

include h

theorem leads_rank (m : List Item) :
    Leads call (· = m) (.take ++ .loop (sees [.comma]) .take ++ expect .rBracket)
      (fun l => rankEnd? m.tail = some l) := by
  refine Leads.append h.advances (Leads.append h.advances
    (Leads.take (Q := fun l => rankEnd? l = rankEnd? m.tail) (fun l hl => by rw [hl]))
    (Leads.loop h.advances fun l => Leads.take ?_)) (Leads.expect (by simp) ?_)
  · rintro l ⟨rfl, hl, q, hc⟩
    obtain ⟨i, l, rfl, hi⟩ := exists_cons_of_headKind (k := .comma) (by simpa [holds_sees] using hc) (by simp)
    rw [rankEnd?_cons] at hl
    exact ⟨by simpa [hi] using hl, by simp⟩
  · rintro i l hi ⟨hl, -⟩
    rw [← hl, rankEnd?_cons]
    simp [hi]

theorem leads_ranks (m : List Item) : Leads call (· = m) arrayRanks
    (fun l => suffixEnd l = suffixEnd m ∧ (ranksFollow m → l.length < m.length)) := by
  have hloop := Leads.loop (c := rankFollows)
    (a := node .arrayRank (.take ++ .loop (sees [.comma]) .take ++ expect .rBracket))
    (I := fun l => suffixEnd l = suffixEnd m ∧ (l = m ∨ l.length < m.length)) h.advances ?_
  · refine hloop.mono (fun l hl => ⟨by rw [hl], .inl hl⟩) ?_
    rintro l ⟨⟨hs, hl⟩, hexit⟩
    refine ⟨hs, fun hr => ?_⟩
    obtain rfl | hl := hl
    · obtain rfl | hexit := hexit
      · simp [ranksFollow, headKind] at hr
      · exact absurd ((may_rankFollows false l).mp hexit) (by simp [hr])
    · exact hl
  · refine fun k => Leads.of_eq ?_
    rintro l ⟨rfl, ⟨hs, hl⟩, hc⟩
    refine (h.leads_rank l).node.mono (fun _ h => h) (fun r hr => ?_)
    have hrank := (may_rankFollows true l).mp hc
    obtain ⟨i, l, rfl, hi⟩ := exists_cons_of_headKind (hrank.mpr rfl).1 (by simp)
    rw [List.tail_cons] at hr
    rw [suffixEnd_cons, if_neg (by simp [hi]), if_pos (by simp [hi]), hr] at hs
    have hlt := length_rankEnd? hr
    have hshort : r.length < m.length := by
      obtain rfl | hl := hl
      · exact Nat.lt_succ_of_lt hlt
      · exact Nat.lt_trans (Nat.lt_succ_of_lt hlt) hl
    exact ⟨⟨hs, .inr hshort⟩, Nat.lt_succ_of_lt hlt⟩

theorem leads_segment (m : List Item) :
    Leads call (· = m) typeSegment (· = segmentEnd m.tail) := by
  refine Leads.branch (Leads.of_eq ?_) (Leads.of_eq ?_)
  · rintro l ⟨rfl, q, hc⟩
    refine Leads.node (Leads.append h.advances (Leads.take (Q := (· = l.tail)) (fun _ h => by rw [h]))
      ((h.arguments l.tail).mono (fun _ h => h) ?_))
    rintro r ⟨hlt, hr⟩
    simp [segmentEnd, hlt, hr]
  · rintro l ⟨rfl, q, hc⟩
    refine Leads.node (Leads.take ?_)
    intro r hr
    rw [hr]
    have hc := (View.argumentsFollow_eq ⟨l, q⟩).symm.trans hc
    unfold segmentEnd
    split
    · rename_i hlt
      rw [hlt, Bool.true_and, Option.isSome_eq_false_iff, Option.isNone_iff_eq_none] at hc
      rw [hc, Option.getD_none]
    · rfl

theorem leads_plain (m : List Item) : Leads call (· = m) plainType (fun l => plainEnd? m = some l) := by
  refine Leads.scope (Leads.branch (Leads.of_eq ?_) (Leads.branch (Leads.of_eq ?_) Leads.complain))
  · rintro l ⟨rfl, q, hc⟩
    refine Leads.node (Leads.take ?_)
    intro r hr
    rw [hr]
    simp only [Cond.holds, View.kindAt_zero] at hc
    cases l with
    | nil => simp [headKind, Kind.isPredefinedType] at hc
    | cons i l => exact if_pos hc
  · rintro l ⟨⟨rfl, -⟩, q, hc⟩
    obtain ⟨i, l, rfl, hi⟩ := exists_cons_of_headKind (k := .ident) (by simpa [holds_sees] using hc) (by simp)
    have hplain : plainEnd? (i :: l) = nameEnd? (i :: l) := by
      simp [plainEnd?, hi, Kind.isPredefinedType]
    rw [hplain]
    refine Leads.append h.advances (h.leads_segment _) ((Leads.loop
      (I := fun r => restOfName? r = nameEnd? (i :: l)) h.advances fun _ => Leads.of_eq ?_).mono ?_ ?_)
    · rintro r ⟨rfl, hr, q, hc⟩
      have hq : qualifies r = true := by
        simpa [Cond.holds, holds_sees, holds_seesAt_one, qualifies] using hc
      rw [restOfName?, if_pos hq] at hr
      refine Leads.wrap (Leads.append h.advances (Leads.take (Q := (· = r.tail)) (fun _ h => by rw [h]))
        ((h.leads_segment r.tail).mono (fun _ h => h) ?_))
      rintro _ rfl
      simp only [qualifies, Bool.and_eq_true, beq_iff_eq] at hq
      obtain ⟨j, l', hr', hj⟩ := exists_cons_of_headKind hq.2 (by simp)
      rw [hr', nameEnd?_cons l' hj] at hr
      rw [hr', List.tail_cons]
      refine ⟨hr, ?_⟩
      have := length_segmentEnd l'
      have := congrArg List.length hr'
      rw [List.length_tail, List.length_cons] at this
      omega
    · rintro _ rfl
      exact (nameEnd?_cons l hi).symm
    · rintro r ⟨hr, hexit⟩
      have hq : qualifies r = false := by
        obtain rfl | ⟨q, hc⟩ := hexit
        · rfl
        · simpa [Cond.holds, holds_sees, holds_seesAt_one, qualifies] using hc
      simpa [restOfName?, hq] using hr.symm

theorem leads_arguments (m : List Item) : Leads call (· = m) typeArgumentList
    (fun l => headKind m = .lt ∧ argumentsEnd? m.tail = some l) := by
  refine Leads.node (Leads.append h.advances (Leads.append h.advances
    (Leads.expect (Q := fun l => headKind m = .lt ∧ argumentsEnd? l = argumentsEnd? m.tail) (by simp) ?_)
    (Leads.commas (J := fun l => headKind m = .lt ∧ argumentsEnd? m.tail = afterArgument? l) h.advances
      (Leads.branch ?_ (Leads.of_eq ?_)) ?_))
    (Leads.expect (by simp) ?_))
  · rintro i l hi rfl
    exact ⟨hi, rfl⟩
  · refine Leads.skip ?_
    rintro l ⟨⟨⟨hm, hl⟩, -⟩, q, hc⟩
    obtain ⟨i, l, rfl, hi⟩ := exists_cons_of_headKind (k := .comma) (by simpa [holds_sees] using hc) (by simp)
    rw [argumentsEnd?_cons] at hl
    exact ⟨hm, by simpa [afterArgument?, hi] using hl.symm⟩
  · rintro l ⟨⟨⟨hm, hl⟩, q', hb⟩, q, hc⟩
    refine (h.type l).mono (fun _ h => h) (fun r hr => ⟨hm, ?_⟩)
    cases l with
    | nil => simp [typeEnd?_nil] at hr
    | cons i l =>
      have hcomma : i.kind ≠ .comma := by simpa [holds_sees, headKind] using hc
      have hgt : i.kind ≠ .gt := by simpa [before, Cond.holds, holds_sees, headKind] using hb
      rw [← hl, argumentsEnd?_cons, if_neg (by simpa using hcomma), if_neg (by simpa using hgt), hr]
      cases r <;> rfl
  · rintro i l hi ⟨hm, hl⟩
    exact ⟨hm, by simpa [afterArgument?, hi] using hl.symm⟩
  · rintro i l hi (⟨⟨hm, hl⟩, -⟩ | ⟨⟨hm, hl⟩, -⟩)
    · rw [argumentsEnd?_cons] at hl
      exact ⟨hm, by simpa [hi] using hl.symm⟩
    · exact ⟨hm, by simpa [afterArgument?, hi] using hl⟩

theorem leads_type (m : List Item) :
    Leads call (· = m) (Rule.type false) (fun l => typeEnd? m = some l) := by
  refine Leads.scope (Leads.branch (Leads.append h.advances ((h.plain m).mono (fun _ h => h.1) (fun _ h => h))
    ((Leads.loop (I := fun l => typeEnd? m = some (suffixEnd l)) h.advances fun _ => Leads.of_eq ?_).mono ?_ ?_))
    (Leads.of_eq ?_))
  · rintro l ⟨rfl, hl, q, hc⟩
    rw [hl]
    refine Leads.mono (P := (· = l)) (Q := fun r => suffixEnd r = suffixEnd l ∧ r.length < l.length)
      (Leads.branch (Leads.of_eq ?_) (Leads.branch (Leads.of_eq ?_) (Leads.of_eq ?_)))
      (fun _ h => h) (fun r hr => ⟨by rw [hr.1], hr.2⟩)
    · rintro l ⟨rfl, q', hq⟩
      exact (leads_mark (.inl (by simpa [nullableFollows, holds_sees] using hq))).wrap
    · rintro l ⟨⟨rfl, -⟩, q', hq⟩
      exact (leads_mark (.inr (by simpa [pointerFollows, holds_sees] using hq))).wrap
    · rintro l ⟨⟨rfl, q₁, hq₁⟩, q₂, hq₂⟩
      have hrank : rankFollows.holds ⟨l, q⟩ = true := by
        have hq₁ : headKind l ≠ .question := by simpa [nullableFollows, holds_sees] using hq₁
        have hq₂ : headKind l ≠ .star := by simpa [pointerFollows, holds_sees] using hq₂
        simpa [Cond.holds, nullableFollows, pointerFollows, holds_sees, hq₁, hq₂] using hc
      have hfollow := ((may_rankFollows true l).mp ⟨q, hrank⟩).mpr rfl
      exact ((h.ranks l).mono (fun _ h => h) (fun r hr => ⟨hr.1, hr.2 hfollow⟩)).wrap
  · intro l hl
    rw [typeEnd?_eq, hl]
    rfl
  · rintro l ⟨hl, hexit⟩
    have hstop : suffixEnd l = l := by
      obtain rfl | ⟨q, hc⟩ := hexit
      · exact suffixEnd_nil
      · simp only [Cond.holds, nullableFollows, pointerFollows, Bool.false_eq_true, if_false, holds_sees,
          Bool.or_eq_false_iff] at hc
        obtain ⟨hq, hs, hr⟩ := hc
        have hrank := (may_rankFollows false l).mp ⟨q, hr⟩
        exact suffixEnd_of_not (by simpa using hq) (by simpa using hs) (by simpa using hrank)
    rw [hl, hstop]
  · rintro l ⟨rfl, q, hc⟩
    refine (h.plain l).mono (fun _ h => h) (fun r hr => ?_)
    simp only [Cond.holds, View.kindAt_zero, Bool.or_eq_false_iff] at hc
    cases l with
    | nil => simp [plainEnd?] at hr
    | cons i l =>
      have hi : (i.kind == .ident) = false := hc.1
      have hp : i.kind.isPredefinedType = false := hc.2
      simp [plainEnd?, hi, hp] at hr

end TypeRuns

theorem typeRuns (n : Nat) : TypeRuns (Action.runStrict rule n) := by
  induction n with
  | zero =>
    have hcomplain : ∀ {P Q g}, Action.Leads (Action.runStrict rule 0) P (.call g) Q := by
      intro P Q g s _ hq
      simp [State.Quiet, Action.run, Action.runStrict, State.complain] at hq
    exact ⟨Action.advances_runStrict rule 0, fun _ => hcomplain, fun _ => hcomplain, fun _ => hcomplain,
      fun _ => hcomplain⟩
  | succ n ih =>
    exact ⟨Action.advances_runStrict rule (n + 1), ih.leads_type, ih.leads_plain, ih.leads_arguments,
      ih.leads_ranks⟩

theorem rest_runStrict_type {n : Nat} {s : State}
    (hq : s.Quiet (Action.runStrict rule n (.type false) s)) :
    typeEnd? s.rest = some (Action.runStrict rule n (.type false) s).rest :=
  (typeRuns n).type s.rest s rfl hq

end Lintel.Grammar
