import Lintel.Proofs.LookaheadScans
import Lintel.Proofs.RunsEnd

namespace Lintel

theorem Group.map_token_split (ts : List Token) : (Group.split ts).1.map (·.token) = ts.filter (!·.isTrivia) := by
  induction ts with
  | nil => rfl
  | cons t ts ih =>
    rw [Group.split]
    dsimp only
    by_cases ht : t.isTrivia = true
    · rw [if_pos ht, List.filter_cons_of_neg (by simp [ht]), ← ih]
      cases (Group.split ts).1 <;> rfl
    · rw [if_neg ht, List.filter_cons_of_pos (by simpa using ht), ← ih]
      rfl

namespace Grammar

namespace Runs

variable {n : Nat}

theorem arrayRanks_length_lt {s t : State} (h : Runs rule n (.call .arrayRanks) s t)
    (hc : Rule.rankFollows.holds s.toView = true) : t.rest.length < s.rest.length := by
  cases h with
  | call h =>
    cases h with
    | loop_false hc' =>
      rw [hc] at hc'
      cases hc'
    | loop_true _ ha hb =>
      have hlt := ha.length_lt (Cond.learn_holds hc (Know.holds_nothing _)) rfl
      have hle := hb.advances.length_le
      omega

theorem marches_type (inExpression : Bool) : ∀ x ∈ (Rule.type inExpression).loops, Marches rule x := by
  intro x hx
  obtain rfl := List.mem_singleton.mp hx
  intro s hc
  have hK := Cond.learn_holds hc (Know.holds_nothing _)
  have hne : s.rest ≠ [] := hK.rest_ne_nil (by cases inExpression <;> rfl)
  refine ⟨hne, fun n t h => ?_⟩
  cases h with
  | branch_true _ h =>
    cases h with
    | wrap h =>
      cases h
      exact State.length_take hne
  | branch_false hnullable h =>
    cases h with
    | branch_true _ h =>
      cases h with
      | wrap h =>
        cases h
        exact State.length_take hne
    | branch_false hpointer h =>
      cases h with
      | wrap h =>
        apply arrayRanks_length_lt h
        simpa [Cond.holds, hnullable, hpointer] using hc

theorem precedence?_le {v : View} {p : Nat} (h : v.precedence? = some p) : 1 ≤ p ∧ p ≤ 10 := by
  unfold View.precedence? at h
  split at h
  · cases h
    decide
  · split at h
    · cases h
    · split at h <;> cases h <;> decide

theorem rest_ne_nil_of_precedence? {v : View} {p : Nat} (h : v.precedence? = some p) : v.rest ≠ [] := by
  intro hnil
  simp [View.precedence?, View.startsShiftRight, View.startsShiftAssign, View.kindAt, hnil] at h

theorem marches_binary (level : Nat) : ∀ x ∈ (Rule.binary level).loops, Marches rule x := by
  intro x hx
  obtain rfl := List.mem_singleton.mp hx
  intro s hc
  obtain ⟨p, hp, -⟩ := Option.any_eq_true _ _ |>.mp hc
  have hne := rest_ne_nil_of_precedence? hp
  have hK : Know.Holds { some := true } s.toView := ⟨rfl, rfl, fun _ => hne⟩
  have htake : ∀ y ∈ ([(Rule.sees [.isKw], .wrap .isExpr (.take ++ .call .pattern)),
      (Rule.sees [.asKw], .wrap .asExpr (.take ++ .call (.type true)))] : List (Cond × Rule)) ++
        [1, 2, 3, 4, 5, 6, 7, 8, 9, 10].map Rule.binaryLevel, y.2.stays Symbol.starts { some := true } = false := by
    decide
  refine ⟨hne, fun n t h => ?_⟩
  obtain ⟨y, hy, -, hrun⟩ | ⟨hnone, -⟩ := of_choose h
  · exact hrun.length_lt hK (htake y hy)
  · have hle := precedence?_le hp
    have hmem : Rule.binaryLevel p ∈ [1, 2, 3, 4, 5, 6, 7, 8, 9, 10].map Rule.binaryLevel := by
      apply List.mem_map_of_mem
      simp only [List.mem_cons, List.not_mem_nil, or_false]
      omega
    have hfalse := hnone _ (List.mem_append_right _ hmem)
    simp [Rule.binaryLevel, Cond.holds, hp] at hfalse

theorem exists_of_foldr_or {cases : List (Cond × Rule)} {v : View}
    (h : (cases.foldr (fun p c => .or p.1 c) Rule.never).holds v = true) : ∃ x ∈ cases, x.1.holds v = true := by
  induction cases with
  | nil => cases h
  | cons x cases ih =>
    obtain hx | hrest := Bool.or_eq_true_iff.mp h
    · exact ⟨x, List.mem_cons_self, hx⟩
    · obtain ⟨y, hy, hhold⟩ := ih hrest
      exact ⟨y, List.mem_cons_of_mem _ hy, hhold⟩

theorem marches_queryClauses :
    Marches rule (Rule.queryClauses.foldr (fun p c => .or p.1 c) Rule.never, Rule.choose Rule.queryClauses .skip) := by
  intro s hc
  have hK := Cond.learn_holds hc (Know.holds_nothing _)
  have hne : s.rest ≠ [] := hK.rest_ne_nil rfl
  have htake : ∀ y ∈ Rule.queryClauses, y.2.stays Symbol.starts { some := true } = false := by
    decide
  refine ⟨hne, fun n t h => ?_⟩
  obtain ⟨y, hy, -, hrun⟩ | ⟨hnone, -⟩ := of_choose h
  · exact hrun.length_lt ⟨rfl, rfl, fun _ => hne⟩ (htake y hy)
  · obtain ⟨y, hy, hcy⟩ := exists_of_foldr_or hc
    rw [hnone y hy] at hcy
    cases hcy

theorem rule_marches (g : Symbol) : ∀ x ∈ (rule g).loops, Marches rule x := by
  have hplain : ∀ {a : Rule}, a.loops.all (fun x => (x.1.learn true {}).nonempty &&
      !x.2.stays Symbol.starts (x.1.learn true {})) = true → ∀ x ∈ a.loops, Marches rule x := by
    intro a ha x hx
    exact marches_of_stays (List.all_eq_true.mp ha x hx)
  cases g with
  | type inExpression => exact marches_type inExpression
  | binary level => exact marches_binary level
  | queryBody =>
    intro x hx
    obtain rfl | hx := List.mem_cons.mp hx
    · exact marches_queryClauses
    · have hrest : Rule.queryBody.loops.tail.all (fun x => (x.1.learn true {}).nonempty &&
          !x.2.stays Symbol.starts (x.1.learn true {})) = true := by
        decide
      exact marches_of_stays (List.all_eq_true.mp hrest x hx)
  | _ => exact hplain (by decide +kernel)

theorem kindAt_of_startsLambda {v : View} (h : v.startsLambda = true) :
    Symbol.starts .lambda (v.kindAt 0) = true := by
  have hhead : headKind v.rest = v.kindAt 0 := by
    cases hr : v.rest <;> simp [headKind, View.kindAt, hr]
  unfold View.startsLambda at h
  by_cases hasync : v.startsAsyncLambda = true
  · simp only [View.startsAsyncLambda, View.isName, Bool.and_eq_true, beq_iff_eq] at hasync
    rw [hasync.1.1]
    rfl
  · simp only [if_neg hasync, hhead] at h
    split at h
    · rename_i hk
      rw [hk]
      rfl
    · rename_i hk
      rw [hk]
      rfl
    · cases h

theorem kindAt_of_startsQuery {v : View} (h : v.startsQuery = true) : Symbol.starts .query (v.kindAt 0) = true := by
  simp only [View.startsQuery, View.isName, Bool.and_eq_true, beq_iff_eq] at h
  rw [h.1.1]
  rfl

theorem rest_ne_nil_of_assignmentSign {v : View}
    (h : (Cond.or (.ahead 0 Rule.isAssignmentSign) Rule.shiftAssign).holds v = true) : v.rest ≠ [] := by
  intro hnil
  simp [Cond.holds, Rule.shiftAssign, View.startsShiftAssign, View.kindAt, hnil, Rule.isAssignmentSign] at h

theorem ends_when {named : Symbol → State → State} {c : Cond} {a : Rule} {s : State}
    (h : c.holds s.toView = true → Runs rule n a s (a.run named s)) :
    Runs rule n (Rule.when c a) s ((Rule.when c a).run named s) := by
  rw [Rule.when, Action.run]
  split
  · rename_i hc
    exact branch_true hc (h hc)
  · rename_i hc
    exact branch_false (by simpa using hc) (.skip s)

theorem ends_assignment {named : Symbol → State → State} {s : State} (hnamed : ∀ g (s : State), s.Advances (named g s))
    (hcall : ∀ g (t : State), (t.rest.length < s.rest.length ∨ t.rest.length = s.rest.length ∧
      g.rankWhen (g.starts (t.kindAt 0)) < Symbol.rank .assignment) → Runs rule n (.call g) t (named g t)) :
    Runs rule n Rule.assignment s (Rule.assignment.run named s) := by
  rw [Rule.assignment, Rule.choose, List.foldr_cons, List.foldr_cons, List.foldr_nil, Action.run]
  split
  · rename_i hc
    apply branch_true hc (hcall .lambda s (.inr ⟨rfl, ?_⟩))
    rw [kindAt_of_startsLambda hc]
    decide
  · rename_i hc
    apply branch_false (by simpa using hc)
    rw [Action.run]
    split
    · rename_i hc
      apply branch_true hc (hcall .query s (.inr ⟨rfl, ?_⟩))
      rw [kindAt_of_startsQuery hc]
      decide
    · rename_i hc
      apply branch_false (by simpa using hc)
      have hfirst := hcall .conditional { s with built := [] } (.inr ⟨rfl, by
        cases Symbol.starts .conditional _ <;> decide⟩)
      refine scope (seq hfirst (ends_when fun hsign => ?_))
      refine ends_of_calls rule_starts hnamed hcall _ ?_ rfl (K := { some := true }) ?_
      · intro x hx
        cases hx
      · obtain hlt | heq := Nat.lt_or_eq_of_le hfirst.advances.length_le
        · exact .inl hlt
        · exact .inr ⟨heq, ⟨rfl, rfl, fun _ => rest_ne_nil_of_assignmentSign hsign⟩, rfl⟩

theorem ends_runNamed (n : Nat) (g : Symbol) (s : State)
    (hn : 64 * s.rest.length + g.rankWhen (g.starts (s.kindAt 0)) < n) :
    Runs rule n (.call g) s (Action.runNamed rule n g s) := by
  induction n generalizing g s with
  | zero => omega
  | succ n ih =>
    have hcall : ∀ h (t : State), (t.rest.length < s.rest.length ∨ t.rest.length = s.rest.length ∧
        h.rankWhen (h.starts (t.kindAt 0)) < g.rankWhen (g.starts (s.kindAt 0))) →
        Runs rule n (.call h) t (Action.runNamed rule n h t) := by
      intro h t hfit
      apply ih h t
      have hlt := h.rankWhen_lt (h.starts (t.kindAt 0))
      obtain hshort | ⟨hsame, hrank⟩ := hfit
      · omega
      · rw [hsame]
        omega
    apply call
    by_cases hg : g = .assignment
    · subst hg
      apply ends_assignment (Action.advances_runNamed rule n)
      intro h t hfit
      exact hcall h t hfit
    · apply ends_of_calls rule_starts (Action.advances_runNamed rule n) hcall (rule g) (rule_marches g)
        (rule_listsStop g)
      exact .inr ⟨rfl, ⟨beq_self_eq_true _, rfl, by simp⟩, rule_descends hg (g.starts (s.kindAt 0))⟩

end Runs

theorem ends_outline (items : List Item) : Runs rule (depth items) (.call .compilationUnit) { rest := items }
    (Action.runNamed rule (depth items) .compilationUnit { rest := items }) := by
  apply Runs.ends_runNamed
  have hrank := Symbol.rankWhen_lt (Symbol.starts .compilationUnit (View.kindAt { rest := items } 0)) .compilationUnit
  simp only [depth]
  omega

theorem taken_outline (items : List Item) :
    (Action.runNamed rule (depth items) .compilationUnit { rest := items }).taken = items.length := by
  have hadd := (ends_outline items).advances.length_add_taken
  rw [rest_outline] at hadd
  simpa using hadd

/-- Reading a text comes to an end: the constructs call each other only finitely often and in one way, all significant
tokens are taken and shown in their order, and what is left is trivia. The scans on the way end as well, each with one
outcome, and the search for a closing parenthesis never counts below zero. -/
theorem reading_ends (t : Text) :
    (∃ s, (∀ u, (∃ n, Runs rule n (.call .compilationUnit) { rest := itemsOf t } u) ↔ u = s) ∧
      outline (itemsOf t) = (s.built.reverse, s.complaints.reverse) ∧ s.rest = [] ∧ s.taken = (itemsOf t).length ∧
      List.Forall₂ Token.Shows (((lex t).map (·.toToken)).filter (!·.isTrivia)) s.shown) ∧
    (∀ u ∈ (Group.split ((lex t).map (·.toToken))).2, u.isTrivia = true) ∧
    ∀ (x : Scan) (l : List Item), x.Starts l → ∃ r, x.Answers l r ∧ ∀ q, Scans x l q ↔ q = r := by
  refine ⟨⟨_, fun u => ⟨?_, ?_⟩, rfl, rest_outline _, taken_outline _, ?_⟩, Group.isTrivia_trailing _, ?_⟩
  · rintro ⟨n, h⟩
    exact h.deterministic (ends_outline _)
  · rintro rfl
    exact ⟨_, ends_outline _⟩
  · have hshows := shows_outline (itemsOf t)
    rwa [itemsOf, Group.map_toToken_items, Group.map_token_split] at hshows
  · intro x l hstart
    exact scans_unique hstart

end Grammar

end Lintel
