import Lintel.Proofs.TriviaErasure

namespace Lintel

def significant (t : Text) : List (Nat × Token) :=
  (Token.located 0 ((lex t).map (·.toToken))).filter (fun p => !p.2.isTrivia)

def Touches (ts : List (Nat × Token)) (i : Nat) : Prop :=
  ∃ a b, ts[i]? = some a ∧ ts[i + 1]? = some b ∧ a.1 + a.2.text.size = b.1

def Angled (ts : List (Nat × Token)) (i : Nat) : Prop :=
  ∃ a b, ts[i]? = some a ∧ ts[i + 1]? = some b ∧ a.2.kind = .gt ∧ (b.2.kind = .gt ∨ b.2.kind = .gtEq)

namespace Group

def located (start : Nat) : List Group → List (Nat × Token)
  | [] => []
  | g :: gs =>
    (start + (Token.textOf g.before).size, g.token) ::
      located (start + (Token.textOf g.before).size + g.token.text.size) gs

theorem filter_located (start : Nat) (ts : List Token) :
    (Token.located start ts).filter (fun p => !p.2.isTrivia) = located start (split ts).1 := by
  induction ts generalizing start with
  | nil => rfl
  | cons t ts ih =>
    rw [Token.located, List.filter_cons, ih, split]
    cases ht : t.isTrivia with
    | false => simp [located, Token.textOf]
    | true =>
      cases hs : (split ts).1 with
      | nil => simp [hs, located]
      | cons g gs => simp [hs, located, Token.textOf, Nat.add_assoc]

theorem map_snd_located (start : Nat) (gs : List Group) : (located start gs).map (·.2) = gs.map (·.token) := by
  induction gs generalizing start with
  | nil => rfl
  | cons g gs ih => simp [located, ih]

def Full (gs : List Group) : Prop :=
  ∀ g ∈ gs, ∀ t ∈ g.before, t.text ≠ []

theorem touches_zero {gs : List Group} {g h : Group} (hfull : Full (g :: h :: gs)) (start : Nat) :
    Touches (located start (g :: h :: gs)) 0 ↔ h.before = [] := by
  have hsize : (Token.textOf h.before).size = 0 ↔ h.before = [] := by
    cases hb : h.before with
    | nil => simp [Token.textOf]
    | cons t ts =>
      obtain ⟨c, cs, ht⟩ := List.exists_cons_of_ne_nil (hfull h (by simp) t (by simp [hb]))
      have hc := c.utf8Size_pos
      simp [Token.textOf, ht]
      omega
  rw [← hsize]
  simp only [Touches, located, List.getElem?_cons_zero, Nat.zero_add, List.getElem?_cons_succ]
  constructor
  · rintro ⟨a, b, ha, hb, hab⟩
    cases ha
    cases hb
    exact Nat.left_eq_add.mp hab
  · intro h0
    exact ⟨_, _, rfl, rfl, Nat.left_eq_add.mpr h0⟩

theorem items_congr {gs hs : List Group} (hg : Full gs) (hh : Full hs) (htokens : gs.map (·.token) = hs.map (·.token))
    (start start' : Nat) (htouch : ∀ i, Angled (located start gs) i →
      (Touches (located start gs) i ↔ Touches (located start' hs) i)) : items gs = items hs := by
  induction gs generalizing hs start start' with
  | nil =>
    rw [List.map_nil, eq_comm, List.map_eq_nil_iff] at htokens
    rw [htokens]
  | cons g gs ih =>
    obtain ⟨h, hs, rfl, hhead, htail⟩ := List.map_eq_cons_iff.mp htokens.symm
    have hrest : items gs = items hs := by
      apply ih (fun x hx => hg x (by simp [hx])) (fun x hx => hh x (by simp [hx])) htail.symm
      exact fun i hi => htouch (i + 1) hi
    have hjoins : joins g.token gs.head? = joins h.token hs.head? := by
      cases gs with
      | nil =>
        obtain rfl : hs = [] := by simpa using htail
        simp [joins]
      | cons g' gs =>
        obtain ⟨h', hs, rfl, hhead', -⟩ := List.map_eq_cons_iff.mp htail
        have hzero := htouch 0
        rw [touches_zero hg, touches_zero hh] at hzero
        have hangled : g.token.kind = .gt ∧ (g'.token.kind = .gt ∨ g'.token.kind = .gtEq) →
            g'.before.isEmpty = h'.before.isEmpty := by
          intro hk
          have hiff := hzero ⟨_, _, rfl, rfl, hk⟩
          rw [Bool.eq_iff_iff, List.isEmpty_iff, List.isEmpty_iff, hiff]
        simp only [joins, List.head?_cons, Option.any_some, hhead, hhead']
        by_cases hk : g.token.kind = .gt ∧ (g'.token.kind = .gt ∨ g'.token.kind = .gtEq)
        · rw [hangled hk]
        · rw [Bool.eq_iff_iff]
          simp only [Bool.and_eq_true, Bool.or_eq_true, beq_iff_eq]
          tauto
    rw [items, items, hjoins, hhead, hrest]

end Group

theorem full_split_lex (t : Text) : Group.Full (Group.split ((lex t).map (·.toToken))).1 := by
  have hlexed : ∀ l ∈ lex t, l.text ≠ [] := by
    rw [lex]
    generalize true = lineStart
    fun_induction Lexeme.lexFrom lineStart t with
    | case1 => simp
    | case2 lineStart c t s ih =>
      intro l hl
      obtain rfl | hl := List.mem_cons.mp hl
      · exact (Lexeme.step_whole lineStart c t).1
      · exact ih l hl
  intro g hg u hu
  have hmem : u ∈ Group.flatten (Group.split ((lex t).map (·.toToken))).1 :=
    List.mem_flatMap.mpr ⟨g, hg, by simp [hu]⟩
  have hall : u ∈ (lex t).map (·.toToken) := by
    rw [← Group.flatten_split ((lex t).map (·.toToken))]
    exact List.mem_append_left _ hmem
  obtain ⟨l, hl, rfl⟩ := List.mem_map.mp hall
  exact hlexed l hl

theorem itemsOf_congr {t u : Text} (htokens : (significant t).map (·.2) = (significant u).map (·.2))
    (htouch : ∀ i, Angled (significant t) i → (Touches (significant t) i ↔ Touches (significant u) i)) :
    itemsOf t = itemsOf u := by
  rw [significant, significant, Group.filter_located, Group.filter_located] at htokens htouch
  rw [Group.map_snd_located, Group.map_snd_located] at htokens
  exact Group.items_congr (full_split_lex t) (full_split_lex u) htokens 0 0 htouch

def Parsed.complaints (p : Parsed) : List ParseFault :=
  (p.faults.map (·.fault)).filter (fun f => !(f matches .lexer _))

theorem complaints_parse (t : Text) :
    (parse t).complaints = (Grammar.outline (itemsOf t)).2.map (fun c => .grammar c.fault) := by
  have hlexer : ∀ (start : Nat) (ls : List Lexeme), ∀ f ∈ Parse.lexFaults.go start ls, ∃ g, f.fault = .lexer g := by
    intro start ls
    induction ls generalizing start with
    | nil => simp [Parse.lexFaults.go]
    | cons l ls ih =>
      intro f hf
      rw [Parse.lexFaults.go] at hf
      split at hf
      · exact ih _ f hf
      · obtain rfl | hf := List.mem_cons.mp hf
        · exact ⟨_, rfl⟩
        · exact ih _ f hf
  have hnone : ((Parse.lexFaults (lex t)).map (·.fault)).filter (fun f => !(f matches .lexer _)) = [] := by
    rw [List.filter_eq_nil_iff]
    intro f hf
    obtain ⟨l, hl, rfl⟩ := List.mem_map.mp hf
    obtain ⟨g, hg⟩ := hlexer 0 (lex t) l hl
    simp [hg]
  rw [Parsed.complaints, parse, List.map_append, List.filter_append, hnone, List.nil_append, Parse.locate,
    List.map_map, List.filter_eq_self.mpr]
  · rfl
  · intro f hf
    obtain ⟨c, -, rfl⟩ := List.mem_map.mp hf
    rfl

/-- Texts with the same significant tokens are read alike, if the same closing angles touch the angle after them. -/
theorem parse_ignores_trivia {t u : Text} (htokens : (significant t).map (·.2) = (significant u).map (·.2))
    (htouch : ∀ i, Angled (significant t) i → (Touches (significant t) i ↔ Touches (significant u) i)) :
    (parse t).tree.erase = (parse u).tree.erase ∧ (parse t).complaints = (parse u).complaints := by
  have hitems := itemsOf_congr htokens htouch
  rw [erase_parse, erase_parse, complaints_parse, complaints_parse, hitems]
  exact ⟨rfl, rfl⟩

theorem parse_ignores_trivia_shift :
    (parse "x = a >>/**/b +;".toList).tree.erase = (parse "x=a\n>> b+ ;".toList).tree.erase ∧
      (parse "x = a >>/**/b +;".toList).complaints = (parse "x=a\n>> b+ ;".toList).complaints := by
  obtain ⟨hspread, hdense⟩ :
      significant "x = a >>/**/b +;".toList = [(0, ⟨.ident, ['x']⟩), (2, ⟨.eq, ['=']⟩), (4, ⟨.ident, ['a']⟩),
        (6, ⟨.gt, ['>']⟩), (7, ⟨.gt, ['>']⟩), (12, ⟨.ident, ['b']⟩), (14, ⟨.plus, ['+']⟩), (15, ⟨.semicolon, [';']⟩)] ∧
      significant "x=a\n>> b+ ;".toList = [(0, ⟨.ident, ['x']⟩), (1, ⟨.eq, ['=']⟩), (2, ⟨.ident, ['a']⟩),
        (4, ⟨.gt, ['>']⟩), (5, ⟨.gt, ['>']⟩), (7, ⟨.ident, ['b']⟩), (8, ⟨.plus, ['+']⟩),
        (10, ⟨.semicolon, [';']⟩)] := by
    decide +kernel
  apply parse_ignores_trivia
  · rw [hspread, hdense]
    rfl
  · rw [hspread, hdense]
    -- The only angles are the fourth and the fifth token.
    rintro (_ | _ | _ | _ | _ | _ | _ | _ | i) ⟨a, b, ha, hb, hgt, hangle⟩ <;>
      cases ha <;> cases hb <;> cases hgt
    · exact iff_of_true ⟨_, _, rfl, rfl, rfl⟩ ⟨_, _, rfl, rfl, rfl⟩
    · simp at hangle

end Lintel
