import Lintel.Proofs.ParenthesizedNodes
import Lintel.Proofs.SpacingBatch

namespace Lintel

namespace Mark

def atop (m n : Mark) : Mark :=
  { token := n.token, gone := m.gone.or n.gone, spaced := n.spaced }

theorem token_atop (m n : Mark) : (m.atop n).token = n.token := rfl

theorem gone_atop (m n : Mark) : (m.atop n).gone = m.gone.or n.gone := rfl

def Lies (m n : Mark) : Prop :=
  m.token = n.token ∧ m.spaced = none ∧ (m.gone = none ∨ n.gone = none)

theorem own_atop {m n : Mark} (h : m.Lies n) (last : Option Token) (offset : Nat) :
    ((m.atop n).own last offset).Perm (m.own last offset ++ n.own last offset) := by
  obtain ⟨htoken, hspaced, hgone⟩ := h
  obtain hgone | hgone := hgone
  · rw [own, own, own, atop, hgone, hspaced]
    exact .refl _
  · rw [own, own, own, atop, hgone, hspaced, htoken, Option.or_none]
    simp

theorem parts_atop {ms ns : List Mark} (h : List.Forall₂ Lies ms ns) (last : Option Token) (offset : Nat) :
    (parts last offset (List.zipWith atop ms ns)).Perm (parts last offset ms ++ parts last offset ns) := by
  induction h generalizing last offset with
  | nil => exact .refl _
  | @cons m n ms ns hmn _ ih =>
    have htail := ih (some n.token) (offset + n.token.text.size)
    rw [List.zipWith_cons_cons, parts, parts, parts, hmn.1]
    refine ((own_atop hmn last offset).append htail).trans ?_
    rw [List.append_assoc, List.append_assoc]
    exact .append_left _ (List.perm_append_comm_assoc _ _ _)

theorem able_atop {cells : List Cell} {ms ns : List Mark} (h : List.Forall₂ Lies ms ns) {pre : List Token}
    (hm : Able cells pre ms) (hn : Able cells pre ns) : Able cells pre (List.zipWith atop ms ns) := by
  induction h generalizing pre with
  | nil => trivial
  | @cons m n ms ns hmn _ ih =>
    refine ⟨fun hgone hsig => ?_, hn.2.1, ih (hmn.1 ▸ hm.2.2) hn.2.2⟩
    cases hg : m.gone with
    | some rule => exact hm.1 (by rw [hg]; rfl) (hmn.1 ▸ hsig)
    | none =>
      rw [atop, hg] at hgone
      exact hn.1 hgone hsig

theorem map_token_atop {ms ns : List Mark} (h : List.Forall₂ Lies ms ns) :
    (List.zipWith atop ms ns).map (·.token) = ns.map (·.token) := by
  induction h with
  | nil => rfl
  | cons _ _ ih => rw [List.zipWith_cons_cons, List.map_cons, List.map_cons, ih]; rfl

theorem sheds_atop {ms ns : List Mark} (h : List.Forall₂ Lies ms ns)
    (htrivia : ∀ n ∈ ns, n.gone.isSome = true → n.token.isTrivia = true) (k : Nat) :
    sheds k (List.zipWith atop ms ns) = sheds k ms := by
  induction h generalizing k with
  | nil => rfl
  | @cons m n ms ns hmn _ ih =>
    have hshed : (m.atop n).shed k = m.shed k := by
      rw [shed, shed, atop, ← hmn.1]
      cases hg : m.gone with
      | some rule => rfl
      | none =>
        cases hn : n.gone with
        | none => rfl
        | some rule =>
          have hgap := htrivia n List.mem_cons_self (by rw [hn]; rfl)
          rw [← hmn.1] at hgap
          simp [hgap]
    rw [List.zipWith_cons_cons, sheds, sheds, hshed, ih (fun n hn => htrivia n (List.mem_cons_of_mem _ hn)),
      show (m.atop n).token = m.token from hmn.1.symm]

end Mark

namespace KeywordSpacing

open Word

def plain (c : Cell) : Mark :=
  { token := c.toToken }

def cleared (c : Cell) : Mark :=
  { token := c.toToken, gone := if c.isBlank then some id else none }

def spaceFirst : List Mark → List Mark
  | [] => []
  | m :: ms => { m with spaced := some id } :: ms

def marksAfter (w : Word) (rest : List Word) (ms : List Mark) : List Mark :=
  match ruling w rest with
  | .pad => spaceFirst (w.gap.map plain ++ ms)
  | .clear => w.gap.map cleared ++ ms
  | _ => w.gap.map plain ++ ms

def marksFrom : List Word → List Mark
  | [] => []
  | w :: ws => plain w.head :: marksAfter w ws (marksFrom ws)

theorem map_token_spaceFirst (ms : List Mark) : (spaceFirst ms).map (·.token) = ms.map (·.token) := by
  cases ms <;> rfl

theorem map_token_marksAfter (w : Word) (rest : List Word) (ms : List Mark) :
    (marksAfter w rest ms).map (·.token) = w.gap.map (·.toToken) ++ ms.map (·.token) := by
  have hplain : (w.gap.map plain).map (·.token) = w.gap.map (·.toToken) := List.map_map
  have hcleared : (w.gap.map cleared).map (·.token) = w.gap.map (·.toToken) := List.map_map
  rw [marksAfter]
  split
  · rw [map_token_spaceFirst, List.map_append, hplain]
  · rw [List.map_append, hcleared]
  · rw [List.map_append, hplain]

theorem map_token_marksFrom (ws : List Word) : (marksFrom ws).map (·.token) = (flatten ws).map (·.toToken) := by
  induction ws with
  | nil => rfl
  | cons w ws ih =>
    rw [marksFrom, List.map_cons, map_token_marksAfter, ih, flatten_cons, List.map_cons, List.map_append]
    rfl

theorem exists_parts_plain (cs : List Cell) (ms : List Mark) (last : Option Token) (offset : Nat) :
    ∃ last', Mark.parts last offset (cs.map plain ++ ms) = Mark.parts last' (offset + Cell.extent cs) ms := by
  induction cs generalizing last offset with
  | nil => exact ⟨last, by simp⟩
  | cons c cs ih =>
    obtain ⟨last', hlast⟩ := ih (some c.toToken) (offset + c.text.size)
    exact ⟨last', by rw [Cell.extent_cons, ← Nat.add_assoc, ← hlast]; rfl⟩

theorem isTrivia_of_isBlank {c : Cell} (h : c.isBlank = true) : c.isTrivia = true := by
  rw [Cell.isBlank] at h
  split at h
  · rename_i hk
    rw [Token.isTrivia, hk]
    rfl
  · rename_i hk
    rw [Token.isTrivia, hk]
    rfl
  · cases h

theorem exists_parts_cleared (cs : List Cell) (ms : List Mark) (last : Option Token) (offset : Nat) :
    ∃ last', Mark.parts last offset (cs.map cleared ++ ms) =
      (clearing offset cs).map (Prod.mk id) ++ Mark.parts last' (offset + Cell.extent cs) ms := by
  induction cs generalizing last offset with
  | nil => exact ⟨last, by simp [clearing]⟩
  | cons c cs ih =>
    obtain ⟨last', hlast⟩ := ih (some c.toToken) (offset + c.text.size)
    refine ⟨last', ?_⟩
    rw [Cell.extent_cons, ← Nat.add_assoc, List.map_cons, List.cons_append, Mark.parts, clearing]
    rw [show (cleared c).token = c.toToken from rfl, hlast]
    cases hb : c.isBlank with
    | false => simp [Mark.own, cleared, hb]
    | true => simp [Mark.own, cleared, hb, isTrivia_of_isBlank hb, Part.taking, Part.removal, Part.removing]

theorem parts_marksFrom (last : Option Token) (offset : Nat) (ws : List Word) :
    Mark.parts last offset (marksFrom ws) = (partsFrom offset ws).map (Prod.mk id) := by
  induction ws generalizing last offset with
  | nil => rfl
  | cons w ws ih =>
    have hhead : Mark.parts last offset (marksFrom (w :: ws)) =
        Mark.parts (some w.head.toToken) (offset + w.head.text.size) (marksAfter w ws (marksFrom ws)) := rfl
    have hrest (last' : Option Token) : Mark.parts last' (offset + w.head.text.size + Cell.extent w.gap)
      (marksFrom ws) =
        (partsFrom (offset + Cell.extent w.cells) ws).map (Prod.mk id) := by
      rw [ih, Word.cells, Cell.extent_cons, Nat.add_assoc]
    rw [hhead, partsFrom, List.map_append, partsAt, marksAfter]
    cases hr : ruling w ws with
    | fine | decline =>
      obtain ⟨last', hlast⟩ := exists_parts_plain w.gap (marksFrom ws) (some w.head.toToken) (offset + w.head.text.size)
      rw [hlast, hrest]
      rfl
    | clear =>
      obtain ⟨last', hlast⟩ := exists_parts_cleared w.gap (marksFrom ws) (some w.head.toToken)
        (offset + w.head.text.size)
      rw [hlast, hrest]
    | pad =>
      obtain ⟨last', hlast⟩ := exists_parts_plain w.gap (marksFrom ws) (some w.head.toToken) (offset + w.head.text.size)
      have hfirst : Mark.parts (some w.head.toToken) (offset + w.head.text.size)
        (spaceFirst (w.gap.map plain ++ marksFrom ws)) =
          (id, .spacing (offset + w.head.text.size) w.head.kind) ::
            Mark.parts (some w.head.toToken) (offset + w.head.text.size) (w.gap.map plain ++ marksFrom ws) := by
        cases hg : w.gap with
        | cons c cs => rfl
        | nil =>
          cases ws with
          | cons v ws => rfl
          | nil => simp [ruling, hg] at hr; split at hr <;> cases hr
      rw [hfirst, hlast, hrest]
      rfl

theorem lies_spaceFirst {ms ns : List Mark} (h : List.Forall₂ Mark.Lies ms ns) :
    List.Forall₂ Mark.Lies ms (spaceFirst ns) := by
  cases h with
  | nil => exact .nil
  | cons hmn hrest => exact .cons hmn hrest

theorem isTrivia_of_gone_marksFrom {ws : List Word} :
    ∀ n ∈ marksFrom ws, n.gone.isSome = true → n.token.isTrivia = true := by
  have hplain (cs : List Cell) : ∀ n ∈ cs.map plain, n.gone.isSome = true → n.token.isTrivia = true := by
    intro n hn hgone
    obtain ⟨c, -, rfl⟩ := List.mem_map.mp hn
    cases hgone
  induction ws with
  | nil =>
    intro x hx
    cases hx
  | cons w ws ih =>
    have hafter : ∀ n ∈ w.gap.map plain ++ marksFrom ws, n.gone.isSome = true → n.token.isTrivia = true := by
      intro n hn
      obtain hn | hn := List.mem_append.mp hn
      · exact hplain _ n hn
      · exact ih n hn
    intro n hn hgone
    obtain rfl | hn := List.mem_cons.mp hn
    · cases hgone
    · rw [marksAfter] at hn
      split at hn
      · cases hms : w.gap.map plain ++ marksFrom ws with
        | nil =>
          rw [hms] at hn
          cases hn
        | cons m ms =>
          rw [hms] at hn hafter
          obtain rfl | hn := List.mem_cons.mp hn
          · exact hafter m List.mem_cons_self hgone
          · exact hafter n (List.mem_cons_of_mem _ hn) hgone
      · obtain hn | hn := List.mem_append.mp hn
        · obtain ⟨c, -, rfl⟩ := List.mem_map.mp hn
          cases hb : c.isBlank with
          | true => exact isTrivia_of_isBlank hb
          | false => simp [cleared, hb] at hgone
        · exact ih n hn hgone
      · exact hafter n hn hgone

section Able

variable {cells : List Cell}

theorem able_plain {cs : List Cell} {pre : List Token} {ms : List Mark}
    (h : Mark.Able cells (pre ++ cs.map (·.toToken)) ms) : Mark.Able cells pre (cs.map plain ++ ms) := by
  induction cs generalizing pre with
  | nil => simpa using h
  | cons c cs ih => exact ⟨nofun, nofun, ih (by simpa [plain] using h)⟩

theorem able_cleared {cs : List Cell} {pre : List Token} {ms : List Mark}
    (h : Mark.Able cells (pre ++ cs.map (·.toToken)) ms) : Mark.Able cells pre (cs.map cleared ++ ms) := by
  induction cs generalizing pre with
  | nil => simpa using h
  | cons c cs ih =>
    refine ⟨fun hgone hsig => ?_, nofun, ih (by simpa [cleared] using h)⟩
    cases hb : c.isBlank with
    | false => simp [cleared, hb] at hgone
    | true =>
      have htrivia : (cleared c).token.isTrivia = true := isTrivia_of_isBlank hb
      rw [htrivia] at hsig
      cases hsig

theorem able_spaceFirst {pre : List Token} {ms : List Mark} (h : Mark.Able cells pre ms)
    (hlast : ∃ p, pre.getLast? = some p ∧ p.kind.isLiteral = false) : Mark.Able cells pre (spaceFirst ms) := by
  cases ms with
  | nil => trivial
  | cons m ms => exact ⟨h.1, fun _ => hlast, h.2.2⟩

theorem able_marksFrom (pre : List Token) (ws : List Word) : Mark.Able cells pre (marksFrom ws) := by
  induction ws generalizing pre with
  | nil => trivial
  | cons w ws ih =>
    refine ⟨nofun, nofun, ?_⟩
    rw [marksAfter]
    split
    · rename_i hr
      refine able_spaceFirst (able_plain (ih _)) ⟨w.head.toToken, by simp [plain], ?_⟩
      have hall : ∀ k ∈ kinds, k.isLiteral = false := by decide
      exact hall _ (mem_kinds_of_ruling hr (by decide))
    · exact able_cleared (ih _)
    · exact able_plain (ih _)

end Able

end KeywordSpacing

end Lintel
