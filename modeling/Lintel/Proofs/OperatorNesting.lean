import Lintel.Proofs.ParenthesizedNodes
import Lintel.Proofs.ParsingEnds

/-!
How operators nest. A node is made of what was built before its sign, so that a chain of signs goes to the left as long
as no sign binds tighter than the one before; and a right operand is read until a sign comes that binds no tighter. This
holds in the tree of every text, with complaints or without.
-/

namespace Lintel

open Outline

/-- How loosely an expression binds. Unary operators and whatever needs no parentheses bind tightest; then come binary
operators, then the one for missing values, and then all others. -/
def Kind.looseness : Kind → Nat
  | .binaryExpr | .isExpr | .asExpr => 1
  | .coalesceExpr => 2
  | .conditionalExpr | .assignmentExpr | .simpleLambdaExpr | .parenLambdaExpr | .queryExpr => 3
  | _ => 0

namespace Tree

def signLevel? (signs : List Kind) : Option Nat :=
  Grammar.View.precedence? { rest := signs.map fun k => { kind := k, text := [], joined := true } }

def level? : Tree → Option Nat
  | .node .binaryExpr cs => signLevel? ((cs.filter (·.isToken)).map (·.kind))
  | .node .isExpr _ => signLevel? [.isKw]
  | .node .asExpr _ => signLevel? [.asKw]
  | _ => none

def IsOperand (bound : Nat) (x : Tree) : Prop :=
  x.isNode = true ∧ x.kind.looseness ≤ bound

def Nested : Kind → List Tree → Prop
  | .binaryExpr, cs => ∃ (l r : Tree) (signs : List Token) (p : Nat), cs = l :: signs.map leaf ++ [r] ∧
      signLevel? (signs.map (·.kind)) = some p ∧ l.IsOperand 1 ∧ r.IsOperand 1 ∧
      (l.kind = .binaryExpr → ∃ q ∈ l.level?, p ≤ q) ∧ (r.kind.looseness = 1 → ∃ q ∈ r.level?, p < q)
  | .coalesceExpr, cs => ∃ (l r : Tree) (sign : Token), cs = [l, leaf sign, r] ∧ l.IsOperand 1 ∧ r.IsOperand 2
  | .prefixUnaryExpr, cs | .awaitExpr, cs => ∃ (sign : Token) (x : Tree), cs = [leaf sign, x] ∧ x.IsOperand 0
  | .castExpr, cs => ∃ (type : List Tree) (x : Tree), cs = type ++ [x] ∧ x.IsOperand 0
  | _, _ => True

theorem IsOperand.mono {b b' : Nat} {x : Tree} (h : x.IsOperand b) (hb : b ≤ b') : x.IsOperand b' :=
  ⟨h.1, h.2.trans hb⟩

theorem level?_binary {l r : Tree} (hl : l.isNode = true) (hr : r.isNode = true) (signs : List Token) :
    (node .binaryExpr (l :: signs.map leaf ++ [r])).level? = signLevel? (signs.map (·.kind)) := by
  have hsigns : ((signs.map leaf).filter (·.isToken)).map (·.kind) = signs.map (·.kind) := by
    induction signs with
    | nil => rfl
    | cons t ts ih => simp_all [leaf, isToken, kind]
  rw [isNode_eq, Bool.not_eq_true'] at hl hr
  rw [level?, List.cons_append, List.filter_cons_of_neg (by simp [hl]), List.filter_append,
    List.filter_cons_of_neg (by simp [hr]), List.filter_nil, List.append_nil, hsigns]

def operators : List Kind :=
  [.binaryExpr, .coalesceExpr, .prefixUnaryExpr, .awaitExpr, .castExpr]

theorem nested_of_not_mem {k : Kind} (h : k ∉ operators) (cs : List Tree) : Nested k cs := by
  unfold Nested
  split
  all_goals trivial

mutual

theorem each_of_erase {Q : Kind → List Tree → Prop} : (t : Tree) → t.erase.Each Q →
    t.Each (fun k cs => Q k (eraseAll cs))
  | .token _ _, _ => trivial
  | .node _ cs, h => ⟨h.1, eachAll_of_erase cs h.2⟩

theorem eachAll_of_erase {Q : Kind → List Tree → Prop} : (ts : List Tree) → EachAll Q (eraseAll ts) →
    EachAll (fun k cs => Q k (eraseAll cs)) ts
  | [], _ => trivial
  | .token k t :: ts, h => by
    refine ⟨trivial, eachAll_of_erase ts ?_⟩
    rw [eraseAll] at h
    split at h
    · exact h
    · exact h.2
  | .node k cs :: ts, h => ⟨each_of_erase (.node k cs) h.1, eachAll_of_erase ts h.2⟩

end

end Tree

namespace Grammar

def Ordered (k : Kind) (cs : List Outline) : Prop :=
  Tree.Nested k (bareAll cs)

def Adds (bound : Nat) (s t : State) : Prop :=
  ∃ x : Tree, t.bare = s.bare ++ [x] ∧ x.IsOperand bound

def Makes (bound : Nat) (s : State) : Prop :=
  ∃ x : Tree, s.bare = [x] ∧ x.IsOperand bound

def Always (n : Nat) (R : State → State → Prop) (a : Rule) : Prop :=
  ∀ s t, Runs rule n a s t → R s t

namespace Always

variable {n b : Nat} {R : State → State → Prop} {a a' : Rule} {c : Cond} {k : Kind}

theorem branch (ha : Always n R a) (ha' : Always n R a') : Always n R (.branch c a a') := by
  intro s t h
  cases h with
  | branch_true _ h => exact ha s t h
  | branch_false _ h => exact ha' s t h

theorem choose {cases : List (Cond × Rule)} {otherwise : Rule} (hcases : ∀ x ∈ cases, Always n R x.2)
    (hother : Always n R otherwise) : Always n R (Rule.choose cases otherwise) := by
  intro s t h
  obtain ⟨x, hx, -, hrun⟩ | ⟨-, hrun⟩ := Runs.of_choose h
  · exact hcases x hx s t hrun
  · exact hother s t hrun

theorem seq (ha' : Always n (fun _ => Makes b) a') : Always n (fun _ => Makes b) (a ++ a') := by
  intro s t h
  cases h with
  | seq _ h => exact ha' _ t h

theorem wrap (hk : k.looseness ≤ b) : Always n (fun _ => Makes b) (.wrap k a) := by
  intro s t h
  cases h with
  | wrap _ => exact ⟨_, State.bare_wrap k _, rfl, hk⟩

theorem scope (ha : ∀ s t, s.bare = [] → Runs rule n a s t → Makes b t) : Always n (Adds b) (.scope a) := by
  intro s t h
  cases h with
  | @scope _ _ _ t h =>
    obtain ⟨x, hx, hoperand⟩ := ha _ t rfl h
    refine ⟨x, ?_, hoperand⟩
    rw [← hx]
    exact State.bare_enclose s (fun _ => t)

theorem call {g : Symbol} (hg : Always n R (rule g)) : Always (n + 1) R (.call g) := by
  intro s t h
  cases h with
  | call h => exact hg s t h

theorem node (hk : k.looseness ≤ b) : Always n (Adds b) (Rule.node k a) :=
  scope fun s t _ h => wrap hk s t h

end Always

namespace Runs

variable {n : Nat}

theorem of_loop {c : Cond} {a : Rule} {I : State → Prop} {s t : State} (h : Runs rule n (.loop c a) s t)
    (hround : ∀ u v, I u → c.holds u.toView = true → Runs rule n a u v → I v) (hs : I s) :
    I t ∧ c.holds t.toView = false := by
  generalize hl : Action.loop c a = l at h
  induction h with
  | loop_false hc =>
    cases hl
    exact ⟨hs, hc⟩
  | loop_true hc ha _ _ ih =>
    cases hl
    exact ih hround (hround _ _ hs hc ha) rfl
  | _ => cases hl

theorem every_of_nodes {Q : Kind → List Outline → Prop} (herror : ∀ cs, Q .error cs) {a : Rule} {s t : State}
    (hcall : ∀ g s t, Runs rule n (.call g) s t → s.Every Q → t.Every Q) (h : Runs rule n a s t)
    (hnodes : ∀ k ∈ a.nodes, ∀ cs, Q k cs) (hs : s.Every Q) : t.Every Q := by
  have haside : ∀ (m : Nat) {u : State}, u.Every Q → (u.setAside m).Every Q := by
    intro m u hu
    unfold State.setAside
    split
    · exact State.every_enclose hu (State.every_wrap _ (State.every_take (by simp [State.Every, State.complain]))
        (herror _))
    · exact hu
  induction h with
  | skip | complain => exact hs
  | take s => exact State.every_take hs
  | takeAs k s => exact State.every_takeAs k hs
  | seq _ _ iha ihb =>
    apply ihb hcall (fun k hk => hnodes k (List.mem_append_right _ hk))
    exact iha hcall (fun k hk => hnodes k (List.mem_append_left _ hk)) hs
  | @scope n a s t _ ih =>
    exact State.every_enclose (f := fun _ => t) hs (ih hcall hnodes (by simp [State.Every]))
  | wrap _ ih =>
    exact State.every_wrap _ (ih hcall (fun k hk => hnodes k (List.mem_cons_of_mem _ hk)) hs)
      (hnodes _ List.mem_cons_self _)
  | branch_true _ _ ih => exact ih hcall (fun k hk => hnodes k (List.mem_append_left _ hk)) hs
  | branch_false _ _ ih => exact ih hcall (fun k hk => hnodes k (List.mem_append_right _ hk)) hs
  | loop_false | commas_none => exact hs
  | loop_true _ _ _ iha ihb => exact ihb hcall hnodes (iha hcall hnodes hs)
  | commas_next _ _ _ _ iha ihb => exact ihb hcall hnodes (State.every_take (iha hcall hnodes hs))
  | commas_last _ _ _ ih => exact ih hcall hnodes hs
  | commas_stop _ _ _ ih => exact haside _ (ih hcall hnodes hs)
  | progress _ ih => exact haside _ (ih hcall hnodes hs)
  | inQuery _ ih => exact ih hcall hnodes hs
  | call h => exact hcall _ _ _ (.call h) hs

end Runs

def Symbol.isTight : Symbol → Bool
  | .unary | .suffixed | .primary | .creation | .initializer => true
  | _ => false

theorem always_simpleName (n : Nat) : Always n (Adds 0) Rule.simpleName :=
  .branch (.node (by decide)) (.node (by decide))

theorem always_suffixed {n : Nat} (hprimary : Always n (Adds 0) (.call .primary)) :
    Always n (Adds 0) Rule.suffixed := by
  refine .scope fun s t hs h => ?_
  cases h with
  | seq hfirst hloop =>
    obtain ⟨x, hx, hoperand⟩ := hprimary _ _ hfirst
    rw [hs, List.nil_append] at hx
    -- Each suffix makes a node of all that was there before.
    refine (Runs.of_loop hloop (fun u v _ _ hround => ?_) ⟨x, hx, hoperand⟩).1
    refine Always.choose (R := fun _ => Makes 0) ?_ (.wrap (by decide)) u v hround
    simp only [List.forall_mem_cons, List.not_mem_nil, false_implies, implies_true, and_true]
    exact ⟨.wrap (by decide), .wrap (by decide), .wrap (by decide), .wrap (by decide)⟩

theorem always_tight (n : Nat) {g : Symbol} (hg : g.isTight = true) : Always n (Adds 0) (.call g) := by
  induction n generalizing g with
  | zero =>
    intro s t h
    cases h
  | succ n ih =>
    apply Always.call
    cases g with
    | unary =>
      refine .choose ?_ (ih rfl)
      simp only [List.forall_mem_cons, List.not_mem_nil, false_implies, implies_true, and_true]
      exact ⟨.node (by decide), .node (by decide), .node (by decide)⟩
    | suffixed => exact always_suffixed (ih rfl)
    | primary =>
      refine .choose ?_ (.node (by decide))
      simp only [List.forall_mem_cons, List.not_mem_nil, false_implies, implies_true, and_true]
      exact ⟨.node (by decide), .node (by decide), always_simpleName n, .node (by decide), .node (by decide),
        .node (by decide), .node (by decide), ih rfl, .node (by decide), .node (by decide), .node (by decide),
        .node (by decide), .node (by decide), .node (by decide), ih rfl⟩
    | creation =>
      refine .choose ?_ (.scope fun s t _ h => Always.seq (.branch (.wrap (by decide)) (.wrap (by decide))) s t h)
      simp only [List.forall_mem_cons, List.not_mem_nil, false_implies, implies_true, and_true]
      exact ⟨.node (by decide), .node (by decide), .node (by decide)⟩
    | initializer => exact .node (by decide)
    | _ => cases hg

section Signs

variable {v : View} {p : Nat}

theorem View.signLevel?_of_shift (h : v.precedence? = some p) (hshift : v.startsShiftRight = true) :
    Tree.signLevel? [.gt, .gt] = some p := by
  rw [← h, View.precedence?, if_pos hshift]
  rfl

theorem View.signLevel?_of_single (h : v.precedence? = some p) (hshift : v.startsShiftRight = false) :
    Tree.signLevel? [v.kindAt 0] = some p := by
  have hassign : v.startsShiftAssign = false := by
    by_contra hassign
    simp [View.precedence?, hshift, hassign] at h
  -- One sign alone is never a part of a longer one.
  have hone : ∀ w : View, w.kindAt 1 = .eof → w.startsShiftRight = false ∧ w.startsShiftAssign = false := by
    intro w hw
    simp [View.startsShiftRight, View.startsShiftAssign, hw]
  obtain ⟨hshift', hassign'⟩ := hone { rest := [v.kindAt 0].map fun k => { kind := k, text := [], joined := true } } rfl
  rw [← h, Tree.signLevel?, View.precedence?, View.precedence?, hshift, hassign, hshift', hassign']
  rfl

theorem View.precedence?_of_sees {k : Kind} (hk : k = .isKw ∨ k = .asKw) (h : (Rule.sees [k]).holds v = true) :
    v.precedence? = some 7 := by
  have hkind : v.kindAt 0 = k := by simpa [Rule.sees, Cond.holds] using h
  obtain rfl | rfl := hk
  all_goals simp [View.precedence?, View.startsShiftRight, View.startsShiftAssign, hkind]

end Signs

/-- What stands to the left of the next sign: an operand whose operator binds at least as tightly as a level, and a
binary one as tightly as the next sign. -/
def Chain (level : Nat) (s : State) : Prop :=
  ∃ x : Tree, s.bare = [x] ∧ x.IsOperand 1 ∧ (x.kind.looseness = 1 → ∃ q ∈ x.level?, level ≤ q) ∧
    (x.kind = .binaryExpr → ∃ q ∈ x.level?, ∀ p ∈ s.precedence?, p ≤ q)

def Climbs (level : Nat) (s t : State) : Prop :=
  (∃ x : Tree, t.bare = s.bare ++ [x] ∧ x.IsOperand 1 ∧ (x.kind.looseness = 1 → ∃ q ∈ x.level?, level ≤ q)) ∧
    ∀ p ∈ t.precedence?, p < level

structure Reads (n : Nat) : Prop where
  ordered : ∀ g s t, Runs rule n (.call g) s t → s.Every Ordered → t.Every Ordered
  binary : ∀ level, Always n (Climbs level) (.call (.binary level))
  coalesce : Always n (Adds 2) (.call .coalesce)

section Rounds

variable {n level : Nat} {s t : State}

theorem Runs.of_signs {p : Nat} (hp : s.precedence? = some p)
    (h : Runs rule n (Rule.when (.look View.startsShiftRight) .take ++ .take) s t) :
    ∃ signs : List Token, t.bare = s.bare ++ signs.map .leaf ∧ Tree.signLevel? (signs.map (·.kind)) = some p := by
  obtain ⟨i, rest, hr⟩ := List.exists_cons_of_ne_nil (Runs.rest_ne_nil_of_precedence? hp)
  have hi : s.kindAt 0 = i.kind := by simp [View.kindAt, hr]
  cases h with
  | seq hshift hlast =>
    cases hlast
    cases hshift with
    | branch_true hc htake =>
      cases htake
      have hshift : s.startsShiftRight = true := hc
      have hlevel := View.signLevel?_of_shift hp hshift
      simp only [View.startsShiftRight, Bool.and_eq_true, beq_iff_eq] at hshift
      cases rest with
      | nil => simp [View.kindAt, hr] at hshift
      | cons j rest =>
        have hj : j.kind = .gt := by simpa [View.kindAt, hr] using hshift.1.2
        have hr' : s.take.rest = j :: rest := by simp [State.take, hr]
        refine ⟨[i.toToken, j.toToken], ?_, ?_⟩
        · rw [State.bare_take hr', State.bare_take hr, List.append_assoc]
          rfl
        · rwa [List.map_cons, List.map_cons, List.map_nil, hj, ← hi, hshift.1.1]
    | branch_false hc hskip =>
      cases hskip
      have hlevel := View.signLevel?_of_single hp hc
      refine ⟨[i.toToken], State.bare_take hr, ?_⟩
      rwa [hi] at hlevel

variable (hn : Reads n)

include hn

theorem Reads.plain {a : Rule} (h : Runs rule n a s t) (ha : a.nodes.all (!Tree.operators.contains ·) = true)
    (hs : s.Every Ordered) : t.Every Ordered := by
  apply h.every_of_nodes (fun _ => trivial) hn.ordered _ hs
  intro k hk cs
  apply Tree.nested_of_not_mem
  simpa using List.all_eq_true.mp ha k hk

theorem chain_binaryLevel {p : Nat} (hlevel : level ≤ p) (hs : Chain level s) (hev : s.Every Ordered)
    (hc : (Rule.binaryLevel p).1.holds s.toView = true) (h : Runs rule n (Rule.binaryLevel p).2 s t) :
    Chain level t ∧ t.Every Ordered := by
  have hp : s.precedence? = some p := by simpa [Rule.binaryLevel, Cond.holds] using hc
  obtain ⟨l, hl, hleft, -, hbinary⟩ := hs
  cases h with
  | @wrap _ _ _ _ u h =>
    have hu := hn.plain h rfl hev
    cases h with
    | seq hsigns hright =>
      obtain ⟨signs, hbare, hsign⟩ := Runs.of_signs hp hsigns
      obtain ⟨⟨r, hr, hoperand, htighter⟩, hnext⟩ := hn.binary (p + 1) _ _ hright
      rw [hbare, hl, List.singleton_append] at hr
      have hnode := Tree.level?_binary hleft.1 hoperand.1 signs
      refine ⟨⟨_, State.bare_wrap _ u, ⟨rfl, le_rfl⟩, ?_, ?_⟩, ?_⟩
      · exact fun _ => ⟨p, by rw [hr, hnode, hsign]; rfl, hlevel⟩
      · exact fun _ => ⟨p, by rw [hr, hnode, hsign]; rfl, fun q hq => Nat.lt_succ_iff.mp (hnext q hq)⟩
      · apply State.every_wrap _ hu
        refine ⟨l, r, signs, p, hr, hsign, hleft, hoperand, fun hk => ?_, htighter⟩
        obtain ⟨q, hq, hle⟩ := hbinary hk
        exact ⟨q, hq, hle p hp⟩

theorem chain_test {k k' : Kind} {a : Rule} (hk : k = .isKw ∧ k' = .isExpr ∨ k = .asKw ∧ k' = .asExpr)
    (hnodes : a.nodes = []) (hlevel : ∀ p ∈ s.precedence?, level ≤ p) (hev : s.Every Ordered)
    (hc : (Rule.sees [k]).holds s.toView = true) (h : Runs rule n (.wrap k' a) s t) : Chain level t ∧
      t.Every Ordered := by
  have hseven := hlevel 7 (View.precedence?_of_sees (hk.imp And.left And.left) hc)
  cases h with
  | @wrap _ _ _ _ u h =>
    have hu := hn.plain h (by rw [hnodes]; rfl) hev
    refine ⟨⟨_, State.bare_wrap _ u, ?_⟩, State.every_wrap _ hu ?_⟩
    · obtain ⟨-, rfl⟩ | ⟨-, rfl⟩ := hk
      all_goals exact ⟨⟨rfl, le_rfl⟩, fun _ => ⟨7, rfl, hseven⟩, by simp [Tree.kind]⟩
    · obtain ⟨-, rfl⟩ | ⟨-, rfl⟩ := hk
      all_goals trivial

theorem chain_round (hs : Chain level s ∧ s.Every Ordered)
    (hc : (Cond.look (fun v => v.precedence?.any (level ≤ ·))).holds s.toView = true)
    (h : Runs rule n (Rule.choose
      (([(Rule.sees [.isKw], .wrap .isExpr (.take ++ .call .pattern)),
        (Rule.sees [.asKw], .wrap .asExpr (.take ++ .call (.type true)))] : List (Cond × Rule)) ++
        [1, 2, 3, 4, 5, 6, 7, 8, 9, 10].map Rule.binaryLevel) .skip) s t) : Chain level t ∧ t.Every Ordered := by
  have hlevel : ∀ p ∈ s.precedence?, level ≤ p := by
    intro p hp
    obtain ⟨q, hq, hle⟩ := Option.any_eq_true _ _ |>.mp hc
    obtain rfl := Option.some.inj (hp.symm.trans hq)
    exact of_decide_eq_true hle
  obtain ⟨x, hx, hcx, hrun⟩ | ⟨-, hrun⟩ := Runs.of_choose h
  · obtain rfl | hx := List.mem_cons.mp hx
    · exact chain_test hn (.inl ⟨rfl, rfl⟩) rfl hlevel hs.2 hcx hrun
    · obtain rfl | hx := List.mem_cons.mp hx
      · exact chain_test hn (.inr ⟨rfl, rfl⟩) rfl hlevel hs.2 hcx hrun
      · obtain ⟨p, -, rfl⟩ := List.mem_map.mp hx
        have hp : s.precedence? = some p := by simpa [Rule.binaryLevel, Cond.holds] using hcx
        exact chain_binaryLevel hn (hlevel p hp) hs.1 hs.2 hcx hrun
  · cases hrun
    exact hs

theorem climbs_binary (h : Runs rule n (Rule.binary level) s t) :
    Climbs level s t ∧ (s.Every Ordered → t.Every Ordered) := by
  cases h with
  | @scope _ _ _ t h =>
    cases h with
    | @seq _ _ _ _ u _ hfirst hloop =>
      obtain ⟨x, hx, hoperand⟩ := always_tight n (g := .unary) rfl _ _ hfirst
      have hzero : x.kind.looseness = 0 := Nat.le_zero.mp hoperand.2
      have hu : Chain level u ∧ u.Every Ordered := by
        refine ⟨⟨x, hx, hoperand.mono (Nat.zero_le 1), ?_, ?_⟩, hn.ordered _ _ _ hfirst (by simp [State.Every])⟩
        · intro hone
          omega
        · intro hk
          rw [hk] at hzero
          cases hzero
      obtain ⟨⟨⟨y, hy, hy', hlevel, -⟩, hev⟩, hstop⟩ :=
        Runs.of_loop hloop (fun u v hu hc hround => chain_round hn hu hc hround) hu
      refine ⟨⟨⟨y, ?_, hy', hlevel⟩, ?_⟩, fun hs => State.every_enclose (f := fun _ => t) hs hev⟩
      · rw [← hy]
        exact State.bare_enclose s (fun _ => t)
      · intro p hp
        simpa [Cond.holds, show t.precedence? = some p from hp] using hstop

theorem adds_coalesce (h : Runs rule n Rule.coalesce s t) : Adds 2 s t ∧ (s.Every Ordered → t.Every Ordered) := by
  cases h with
  | @scope _ _ _ t h =>
    suffices hinner : Makes 2 t ∧ t.Every Ordered by
      obtain ⟨⟨y, hy, hoperand⟩, hev⟩ := hinner
      refine ⟨⟨y, ?_, hoperand⟩, fun hs => State.every_enclose (f := fun _ => t) hs hev⟩
      rw [← hy]
      exact State.bare_enclose s (fun _ => t)
    cases h with
    | @seq _ _ _ _ u _ hfirst hrest =>
      obtain ⟨⟨l, hl, hleft, -⟩, -⟩ := hn.binary 1 _ _ hfirst
      have hu := hn.ordered _ _ _ hfirst (by simp [State.Every])
      cases hrest with
      | branch_false _ hskip =>
        cases hskip
        exact ⟨⟨l, hl, hleft.mono (Nat.le_succ 1)⟩, hu⟩
      | branch_true hc hwrap =>
        have hsign : headKind u.rest = .questionQuestion := by simpa [holds_sees] using hc
        obtain ⟨i, rest, hi, -⟩ := exists_cons_of_headKind hsign (by simp)
        cases hwrap with
        | wrap h =>
          have hev := hn.plain h rfl hu
          cases h with
          | seq htake hright =>
            cases htake
            obtain ⟨r, hr, hoperand⟩ := hn.coalesce _ _ hright
            rw [State.bare_take hi, hl] at hr
            exact ⟨⟨_, State.bare_wrap _ _, rfl, le_rfl⟩, State.every_wrap _ hev ⟨l, r, i.toToken, hr, hleft, hoperand⟩⟩

theorem ordered_operand {k : Kind} {a : Rule} (ha : a.nodes.all (!Tree.operators.contains ·) = true)
    (hk : ∀ (u : State) (x : Tree), Runs rule n a { s with built := [] } u → x.IsOperand 0 →
      Tree.Nested k (u.bare ++ [x]))
    (h : Runs rule n (Rule.node k (a ++ .call .unary)) s t) (hs : s.Every Ordered) : t.Every Ordered := by
  cases h with
  | scope h =>
    cases h with
    | @wrap _ _ _ _ v h =>
      cases h with
      | @seq _ _ _ _ u _ hfront hoperand =>
        have hu := hn.plain hfront ha (by simp [State.Every])
        obtain ⟨x, hx, htight⟩ := always_tight n (g := .unary) rfl _ _ hoperand
        refine State.every_enclose (f := fun _ => v.wrap k) hs
          (State.every_wrap k (hn.ordered _ _ _ hoperand hu) ?_)
        rw [Ordered, ← State.bare, hx]
        exact hk u x hfront htight

theorem ordered_unary (h : Runs rule n Rule.unary s t) (hs : s.Every Ordered) : t.Every Ordered := by
  cases h with
  | branch_true hc h =>
    apply ordered_operand hn rfl _ h hs
    intro u x htake htight
    obtain ⟨i, rest, hr⟩ := List.exists_cons_of_ne_nil
      ((Cond.learn_holds hc (Know.holds_nothing _)).rest_ne_nil rfl)
    cases htake
    exact ⟨i.toToken, x, by rw [State.bare_take (s := { s with built := [] }) hr]; rfl, htight⟩
  | branch_false _ h =>
    cases h with
    | branch_true hc h =>
      apply ordered_operand hn rfl _ h hs
      intro u x htake htight
      obtain ⟨i, rest, hr⟩ := List.exists_cons_of_ne_nil
        ((Cond.learn_holds hc (Know.holds_nothing _)).rest_ne_nil rfl)
      cases htake
      refine ⟨⟨.awaitKw, i.text⟩, x, ?_, htight⟩
      rw [State.takeAs]
      simp only [hr]
      rfl
    | branch_false _ h =>
      cases h with
      | branch_true _ h =>
        apply ordered_operand hn rfl _ h hs
        exact fun u x _ htight => ⟨u.bare, x, rfl, htight⟩
      | branch_false _ h => exact hn.ordered _ _ _ h hs

end Rounds

theorem reads (n : Nat) : Reads n := by
  induction n with
  | zero =>
    constructor
    · intro g s t h
      cases h
    · intro level s t h
      cases h
    · intro s t h
      cases h
  | succ n ih =>
    constructor
    · intro g s t h hs
      cases h with
      | call h =>
        cases g with
        | binary level => exact (climbs_binary ih h).2 hs
        | coalesce => exact (adds_coalesce ih h).2 hs
        | unary => exact ordered_unary ih h hs
        | type inExpression => cases inExpression <;> exact ih.plain h rfl hs
        | _ => exact ih.plain h rfl hs
    · exact fun level => .call fun s t h => (climbs_binary ih h).1
    · exact .call fun s t h => (adds_coalesce ih h).1


theorem ordered_outline (items : List Item) : EveryAll Ordered (outline items).1 := by
  have hall := (reads _).ordered _ _ _ (ends_outline items) (by simp [State.Every])
  rw [everyAll_iff]
  exact fun o ho => hall o (List.mem_reverse.mp ho)

end Grammar

/-- In the tree of every text, without its trivia, the operands of each operator bind tightly enough. Binary operators
chain to the left, and a right operand binds strictly tighter; the operator for missing values chains to the right. -/
theorem operators_nest (t : Text) : (parse t).tree.Each (fun k cs => Tree.Nested k (Tree.eraseAll cs)) := by
  apply Tree.each_of_erase
  rw [erase_parse]
  exact ⟨trivial, Outline.each_bareAll (fun _ _ h => h) _ (Grammar.ordered_outline _)⟩

end Lintel
