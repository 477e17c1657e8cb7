import Lintel.Proofs.Drafts
import Lintel.Proofs.OrderedBatch

namespace Lintel

open Zipper

namespace Part

def spacing (offset : Nat) (kind : Kind) : Part :=
  ⟨⟨offset, 0⟩, .insertAfter kind [.token .whitespace [' ']], fun _ => rfl⟩

section Resolve

variable {k : Kind} {ds : List Tree} (hfill : Tree.FilledAll ds) {ls rs : List Zipper} {z : Zipper}
  (h : leaves (.node k ds) = ls ++ z :: rs) (hpos : 0 < z.cell.text.size)

include hfill h hpos

theorem resolve_spacing : (spacing (Token.extent (ls.map token ++ [z.token])) z.token.kind).resolve (.node k ds) 0 =
    .ok (.after z) := by
  have hpart : padding (Token.extent (ls.map token)) z.cell =
      spacing (Token.extent (ls.map token ++ [z.token])) z.token.kind := by
    simp [padding, spacing, token, cell]
  rw [← hpart, ← map_token, ← Cell.extent_eq]
  exact resolve_padding hfill h hpos

end Resolve

end Part

namespace Batch

variable {k : Kind} {bs : List Tree} {pre suf : List Token} {y : Token} {g : Progress}

theorem step_spacing (h : Draft k bs g.tree (pre ++ y :: suf)) (hy : y.kind.isLiteral = false)
    (hshift : g.shift (Token.extent (pre ++ [y])) = 0) (rule : String) :
    ∃ tree, Draft k bs tree (pre ++ [y, .space] ++ suf) ∧
      step g (rule, .spacing (Token.extent (pre ++ [y])) y.kind) = .ok
        { tree, made := ⟨rule, ⟨Token.extent (pre ++ [y]), 0⟩, [' ']⟩ :: g.made
          inserted := some (Token.extent (pre ++ [y]), 1) } := by
  have hpos : 0 < y.text.size := h.full y (by simp)
  obtain ⟨ds, ls, z, rs, ht, hfill, hleaves, rfl, rfl, rfl⟩ := h.exists_leaf
  have htok := (root_leavesOf [] _ z (by rw [← leaves, hleaves]; simp)).2
  have hkept : Tree.eraseAll [z.focus, .token .whitespace [' ']] = Tree.eraseAll [z.focus] := by
    rw [← List.singleton_append, Tree.eraseAll_append]
    exact List.append_nil _
  have htokens : Tree.tokensAll [z.focus, .token .whitespace [' ']] = [z.token, .space] := by
    rw [focus_leaf htok]
    rfl
  have hfull : ∀ x ∈ Tree.tokensAll [z.focus, .token .whitespace [' ']], 0 < x.text.size := by
    intro x hx
    rw [htokens] at hx
    obtain rfl | rfl : x = z.token ∨ x = .space := by simpa using hx
    · exact hpos
    · decide
  have heach : Tree.EachAll Tree.Plain [z.focus, .token .whitespace [' ']] := by
    rw [focus_leaf htok]
    exact ⟨trivial, trivial, trivial⟩
  obtain ⟨tree, hsplice, hdraft⟩ := h.splice ht hleaves hkept hfull heach hy
  rw [htokens] at hdraft
  have hresolve := Part.resolve_spacing hfill hleaves hpos
  rw [← ht] at hresolve
  refine ⟨tree, hdraft, ?_⟩
  have hfold : (Part.spacing (Token.extent (ls.map token ++ [z.token])) z.token.kind).fold (.after z) =
    some (tree, [' ']) := by
    simp [Part.fold, Part.spacing, insertAfter?, hsplice, Tree.textAll, Tree.text]
  rw [step_eq hshift hresolve hfold]
  rfl

end Batch

/-- A token, the rule that takes it out, and the rule that puts a space before it. -/
structure Mark where
  token : Token
  gone : Option String := none
  spaced : Option String := none

namespace Mark

def own (last : Option Token) (offset : Nat) (m : Mark) : List (String × Part) :=
  m.gone.toList.map (fun rule => (rule, Part.taking (!m.token.isTrivia) offset m.token)) ++
    m.spaced.toList.map (fun rule => (rule, Part.spacing offset (last.elim .eof (·.kind))))

def parts (last : Option Token) (offset : Nat) : List Mark → List (String × Part)
  | [] => []
  | m :: ms => m.own last offset ++ parts (some m.token) (offset + m.token.text.size) ms

def shed (n : Nat) (m : Mark) : List Nat :=
  if m.gone.isSome && !m.token.isTrivia then [n] else []

def sheds (n : Nat) : List Mark → List Nat
  | [] => []
  | m :: ms => m.shed n ++ sheds (n + Token.weight [m.token]) ms

def Able (cells : List Cell) (pre : List Token) : List Mark → Prop
  | [] => True
  | m :: ms =>
    (m.gone.isSome = true → m.token.isTrivia = false →
      cells[Token.weight pre]?.map (·.owner) = some .parenExpr) ∧
    (m.spaced.isSome = true → ∃ p, pre.getLast? = some p ∧ p.kind.isLiteral = false) ∧
    Able cells (pre ++ [m.token]) ms

end Mark

structure Patch extends Mark where
  filler : List Token := []

namespace Patch

def lead (p : Patch) : List Token :=
  if p.spaced.isSome then [.space] else []

def image (p : Patch) : List Token :=
  p.lead ++ if p.gone.isSome then p.filler else [p.token]

def Filling (last : Option Token) : List Patch → Prop
  | [] => True
  | p :: ps =>
    (p.gone.isSome = true → Token.Fills (last.toList ++ p.lead) (ps.flatMap image) p.filler) ∧ Filling (some p.token) ps

def own (offset : Nat) (p : Patch) : List Applied :=
  p.gone.toList.map (fun rule => ⟨rule, ⟨offset, p.token.text.size⟩, Token.textOf p.filler⟩) ++
    p.spaced.toList.map (fun rule => ⟨rule, ⟨offset, 0⟩, [' ']⟩)

def made (offset : Nat) : List Patch → List Applied
  | [] => []
  | p :: ps => p.own offset ++ made (offset + p.token.text.size) ps

end Patch

theorem Mark.le_of_mem_sheds {n i : Nat} {ms : List Mark} (h : i ∈ sheds n ms) : n ≤ i := by
  induction ms generalizing n with
  | nil => cases h
  | cons m ms ih =>
    rw [sheds, List.mem_append, shed] at h
    obtain h | h := h
    · split at h
      · exact (List.mem_singleton.mp h).ge
      · cases h
    · have := ih h
      omega

theorem Mark.pairwise_sheds (n : Nat) (ms : List Mark) : (sheds n ms).Pairwise (· < ·) := by
  induction ms generalizing n with
  | nil => exact .nil
  | cons m ms ih =>
    refine List.pairwise_append.mpr ⟨?_, ih _, fun i hi j hj => ?_⟩
    · rw [shed]
      split
      · exact List.pairwise_singleton _ _
      · exact .nil
    · have hle := le_of_mem_sheds hj
      rw [shed] at hi
      split at hi
      · rename_i hgone
        simp only [Bool.and_eq_true, Bool.not_eq_true'] at hgone
        have hweight : Token.weight [m.token] = 1 := by simp [Token.weight, hgone.2]
        have := List.mem_singleton.mp hi
        omega
      · cases hi

theorem Tree.getElem?_cells_sheds (k : Kind) (bs : List Tree) {n : Nat} {is : List Nat} (his : ∀ i ∈ is, n < i) :
    (cellsAll k (is.foldr shedAll bs))[n]? = (cellsAll k bs)[n]? := by
  induction is with
  | nil => rfl
  | cons i is ih =>
    rw [List.foldr_cons, cells_shedAll, List.getElem?_eraseIdx_of_lt (his i List.mem_cons_self),
      ih (fun j hj => his j (List.mem_cons_of_mem _ hj))]

theorem Token.Fills.congr {pre pre' suf filler : List Token} (h : Fills pre suf filler)
    (hlast : pre.getLast? = pre'.getLast?) : Fills pre' suf filler := by
  rwa [Fills, ← hlast]

namespace Batch

variable {k : Kind} {bs : List Tree} {pre suf : List Token} {y : Token} {g : Progress}

theorem step_gone (h : Draft k bs g.tree (pre ++ y :: suf)) (hk : k ≠ .parenExpr)
    (hown : y.isTrivia = false → (Tree.cellsAll k bs)[Token.weight pre]?.map (·.owner) = some .parenExpr) {offset : Nat}
    (hat : offset + g.shift offset = Token.extent pre) (rule : String) :
    ∃ tree filler, Token.Fills pre suf filler ∧
      Draft k (if y.isTrivia then bs else Tree.shedAll (Token.weight pre) bs) tree (pre ++ filler ++ suf) ∧
      step g (rule, .taking (!y.isTrivia) offset y) = .ok
        { tree, made := ⟨rule, ⟨offset, y.text.size⟩, Token.textOf filler⟩ :: g.made, inserted := g.inserted } := by
  cases hy : y.isTrivia with
  | true => exact step_trivia h hy hat rule
  | false => exact step_parenthesis h hk hy (hown hy) hat rule

theorem step_spaced {m : Mark} (h : Draft k bs g.tree (pre ++ m.token :: suf))
    (hspaced : m.spaced.isSome = true → ∃ p, pre.getLast? = some p ∧ p.kind.isLiteral = false)
    (hinserted : ∀ x ∈ g.inserted, Token.extent pre < x.1) (p : Patch) (hp : p.toMark = m) :
    ∃ g' : Progress,
      (m.spaced.toList.map (fun rule =>
      (rule, Part.spacing (Token.extent pre) (pre.getLast?.elim .eof (·.kind))))).foldlM
        step g = .ok g' ∧
      Draft k bs g'.tree (pre ++ p.lead ++ m.token :: suf) ∧
      g'.made = m.spaced.toList.map (fun rule => ⟨rule, ⟨Token.extent pre, 0⟩, [' ']⟩) ++ g.made ∧
      Token.extent pre + g'.shift (Token.extent pre) = Token.extent (pre ++ p.lead) ∧
      ∀ x ∈ g'.inserted, Token.extent pre ≤ x.1 := by
  subst hp
  cases hs : p.spaced with
  | none =>
    have hlead : p.lead = [] := by rw [Patch.lead, hs]; rfl
    have hshift : g.shift (Token.extent pre) = 0 := shift_eq_zero fun x hx => (hinserted x hx).ne'
    rw [hlead, List.append_nil]
    exact ⟨g, rfl, h, rfl, by rw [hshift]; rfl, fun x hx => (hinserted x hx).le⟩
  | some rule =>
    have hlead : p.lead = [.space] := by rw [Patch.lead, hs]; rfl
    obtain ⟨y, hlast, hy⟩ := hspaced (by rw [hs]; rfl)
    obtain ⟨pre, rfl⟩ := List.getLast?_eq_some_iff.mp hlast
    rw [List.append_assoc] at h
    obtain ⟨tree, hdraft, hstep⟩ := step_spacing h hy (shift_eq_zero fun x hx => (hinserted x hx).ne') rule
    rw [hlast, hlead]
    refine ⟨⟨tree, _, _⟩, (bind_pure _).trans hstep, by simpa using hdraft, rfl, ?_, ?_⟩
    · simp [Progress.shift, Token.space]
      rfl
    · rintro x ⟨⟩
      exact le_rfl

theorem reverse_toList {α : Type} (o : Option α) : o.toList.reverse = o.toList := by
  cases o <;> rfl

theorem step_mark {m : Mark} (h : Draft k bs g.tree (pre ++ m.token :: suf)) (hk : k ≠ .parenExpr)
    (hown : m.gone.isSome = true → m.token.isTrivia = false →
      (Tree.cellsAll k bs)[Token.weight pre]?.map (·.owner) = some .parenExpr)
    (hspaced : m.spaced.isSome = true → ∃ p, pre.getLast? = some p ∧ p.kind.isLiteral = false)
    (hinserted : ∀ x ∈ g.inserted, Token.extent pre < x.1) :
    ∃ (p : Patch) (g' : Progress), p.toMark = m ∧
      (m.gone.isSome = true → Token.Fills (pre.getLast?.toList ++ p.lead) suf p.filler) ∧
      (m.own pre.getLast? (Token.extent pre)).reverse.foldlM step g = .ok g' ∧
      Draft k ((m.shed (Token.weight pre)).foldr Tree.shedAll bs) g'.tree (pre ++ p.image ++ suf) ∧
      g'.made = p.own (Token.extent pre) ++ g.made ∧ ∀ x ∈ g'.inserted, Token.extent pre ≤ x.1 := by
  obtain ⟨g₁, hfold, hdraft, hmade, hat, hinserted'⟩ := step_spaced h hspaced hinserted { toMark := m } rfl
  have hback : (m.own pre.getLast? (Token.extent pre)).reverse.foldlM step g =
      (m.gone.toList.map (fun rule => (rule, Part.taking (!m.token.isTrivia) (Token.extent pre) m.token))).foldlM step
        g₁ := by
    rw [Mark.own, List.reverse_append, List.foldlM_append, ← List.map_reverse, ← List.map_reverse, reverse_toList,
      reverse_toList, hfold]
    rfl
  rw [hback]
  cases hg : m.gone with
  | none =>
    refine ⟨{ toMark := m }, g₁, rfl, nofun, rfl, ?_, ?_, hinserted'⟩
    · simpa [Mark.shed, Patch.image, hg] using hdraft
    · rw [hmade, Patch.own, hg]
      rfl
  | some rule =>
    have hlead : Token.weight (pre ++ Patch.lead { toMark := m }) = Token.weight pre := by
      rw [Token.weight_append, Patch.lead]
      split <;> rfl
    obtain ⟨tree, filler, hfills, hdraft', hstep⟩ := step_gone hdraft hk
      (fun hsig => by rw [hlead]; exact hown (by rw [hg]; rfl) hsig) hat rule
    refine ⟨{ toMark := m, filler }, ⟨tree, _, g₁.inserted⟩, rfl, fun _ => hfills.congr ?_, (bind_pure _).trans hstep,
      ?_, ?_, hinserted'⟩
    · have hlast : pre.getLast?.toList.getLast? = pre.getLast? := by cases pre.getLast? <;> rfl
      rw [List.getLast?_append, List.getLast?_append, hlast]
      rfl
    · rw [hlead] at hdraft'
      have hshed : (m.shed (Token.weight pre)).foldr Tree.shedAll bs =
          if m.token.isTrivia then bs else Tree.shedAll (Token.weight pre) bs := by
        rw [Mark.shed, hg]
        cases m.token.isTrivia <;> rfl
      have himage : Patch.image { toMark := m, filler } = Patch.lead { toMark := m } ++ filler := by
        rw [Patch.image, hg]
        rfl
      rw [hshed, himage, ← List.append_assoc]
      exact hdraft'
    · rw [hmade, Patch.own, hg]
      rfl

theorem fold_marks (hk : k ≠ .parenExpr) {t : Tree} (ms : List Mark) (pre : List Token)
    (h : Draft k bs t (pre ++ ms.map (·.token)))
    (hable : Mark.Able (Tree.cellsAll k bs) pre ms) :
    ∃ (ps : List Patch) (g : Progress), ps.map (·.toMark) = ms ∧ Patch.Filling pre.getLast? ps ∧
      (Mark.parts pre.getLast? (Token.extent pre) ms).reverse.foldlM step { tree := t } = .ok g ∧
      Draft k ((Mark.sheds (Token.weight pre) ms).foldr Tree.shedAll bs) g.tree (pre ++ ps.flatMap Patch.image) ∧
      g.made = Patch.made (Token.extent pre) ps ∧ ∀ x ∈ g.inserted, Token.extent pre ≤ x.1 := by
  induction ms generalizing pre with
  | nil => exact ⟨[], { tree := t }, rfl, trivial, rfl, h, rfl, nofun⟩
  | cons m ms ih =>
    obtain ⟨hown, hspaced, hrest⟩ := hable
    have hpos : 0 < m.token.text.size := h.full _ (by simp)
    obtain ⟨ps, g, hps, hfilling, hfold, hdraft, hmade, hinserted⟩ := ih (pre ++ [m.token]) (by simpa using h) hrest
    simp only [Token.extent_append, Token.extent_cons, Token.extent_nil, Nat.add_zero, Token.weight_append,
      List.getLast?_concat, List.append_assoc, List.singleton_append] at hfilling hfold hdraft hmade hinserted
    obtain ⟨p, g', hp, hfills, hfold', hdraft', hmade', hinserted'⟩ := step_mark hdraft hk
      (fun hgone hsig => by
        rw [Tree.getElem?_cells_sheds]
        · exact hown hgone hsig
        · intro i hi
          have hle := Mark.le_of_mem_sheds hi
          have hweight : Token.weight [m.token] = 1 := by simp [Token.weight, hsig]
          omega)
      hspaced
      (fun x hx => by
        have := hinserted x hx
        omega)
    refine ⟨p :: ps, g', by rw [List.map_cons, hp, hps], ⟨?_, ?_⟩, ?_, ?_, ?_, hinserted'⟩
    · rw [hp]
      exact hfills
    · rw [hp]
      exact hfilling
    · rw [Mark.parts, List.reverse_append, List.foldlM_append, hfold]
      exact hfold'
    · rw [Mark.sheds, List.foldr_append, List.flatMap_cons, ← List.append_assoc]
      exact hdraft'
    · rw [hmade', hmade, Patch.made, hp]

end Batch

namespace Mark

theorem mem_own {last : Option Token} {offset : Nat} {m : Mark} {x : String × Part} (h : x ∈ m.own last offset) :
    x.2 = .taking (!m.token.isTrivia) offset m.token ∨
      m.spaced.isSome = true ∧ x.2 = .spacing offset (last.elim .eof (·.kind)) := by
  obtain h | h := List.mem_append.mp h
  · obtain ⟨rule, -, rfl⟩ := List.mem_map.mp h
    exact .inl rfl
  · obtain ⟨rule, hrule, rfl⟩ := List.mem_map.mp h
    exact .inr ⟨by rw [Option.mem_toList.mp hrule]; rfl, rfl⟩

theorem span_own {last : Option Token} {offset : Nat} {m : Mark} {x : String × Part} (h : x ∈ m.own last offset) :
    x.2.span.start = offset ∧ x.2.span.stop ≤ offset + m.token.text.size := by
  obtain h | ⟨-, h⟩ := mem_own h <;> rw [h] <;> simp [Part.taking, Part.spacing, Span.stop]

theorem start_parts {last : Option Token} {offset : Nat} {ms : List Mark} {x : String × Part}
    (h : x ∈ parts last offset ms) : offset ≤ x.2.span.start := by
  induction ms generalizing last offset with
  | nil => cases h
  | cons m ms ih =>
    obtain h | h := List.mem_append.mp h
    · exact (span_own h).1.ge
    · exact (Nat.le_add_right _ _).trans (ih h)

theorem pairwise_parts {ms : List Mark} (hfull : ∀ m ∈ ms, 0 < m.token.text.size) (last : Option Token) (offset : Nat) :
    (parts last offset ms).Pairwise (fun x y => x.2.Precedes y.2) := by
  induction ms generalizing last offset with
  | nil => exact .nil
  | cons m ms ih =>
    have hm := hfull m List.mem_cons_self
    refine List.pairwise_append.mpr ⟨?_, ih (fun n hn => hfull n (List.mem_cons_of_mem _ hn)) _ _, fun x hx y hy => ?_⟩
    · rw [own]
      cases m.gone <;> cases m.spaced <;> simp [Part.Precedes, Part.taking, Part.spacing, hm]
    · have hstart := span_own hx
      have hle := start_parts hy
      exact .inl ⟨by omega, by omega⟩

theorem resolve_parts {k : Kind} {bs : List Tree} {t : Tree} {ms : List Mark} {cells : List Cell} (pre : List Token)
    (h : Draft k bs t (pre ++ ms.map (·.token))) (hable : Able cells pre ms) :
    ∀ x ∈ parts pre.getLast? (Token.extent pre) ms, (x.2.resolve t 0).toOption.isSome = true := by
  induction ms generalizing pre with
  | nil =>
    intro x hx
    cases hx
  | cons m ms ih =>
    obtain ⟨-, hspaced, hrest⟩ := hable
    intro x hx
    obtain hx | hx := List.mem_append.mp hx
    · obtain hx | ⟨hs, hx⟩ := mem_own hx
      · have hpos := h.full m.token (by simp)
        rw [List.map_cons] at h
        obtain ⟨ds, ls, z, rs, rfl, hfill, hleaves, rfl, hz, -⟩ := h.exists_leaf
        rw [← hz] at hpos
        have hresolve := resolve_taking hfill hleaves (!z.token.isTrivia) hpos (Nat.add_zero _)
        rw [hx, ← hz]
        exact congrArg (·.toOption.isSome) hresolve
      · obtain ⟨y, hlast, -⟩ := hspaced hs
        obtain ⟨pre, rfl⟩ := List.getLast?_eq_some_iff.mp hlast
        rw [List.append_assoc] at h
        have hpos := h.full y (by simp)
        obtain ⟨ds, ls, z, rs, rfl, hfill, hleaves, rfl, rfl, -⟩ := h.exists_leaf
        rw [hx, hlast, Option.elim_some, Part.resolve_spacing hfill hleaves hpos]
        rfl
    · refine ih (pre ++ [m.token]) (by simpa using h) hrest x ?_
      simpa using hx

end Mark

namespace Batch

theorem apply_marks {k : Kind} {bs : List Tree} {source : Source} {ms : List Mark} {edits : List Edit}
    (h : Draft k bs source.tree (ms.map (·.token))) (hk : k ≠ .parenExpr) (hable : Mark.Able (Tree.cellsAll k bs) [] ms)
    (hrow : (tagged edits).Perm (Mark.parts none 0 ms)) (hedits : edits ≠ []) (hne : ∀ e ∈ edits, e.parts ≠ []) :
    ∃ (ps : List Patch) (tree : Tree), ps.map (·.toMark) = ms ∧ Patch.Filling none ps ∧
      Draft k ((Mark.sheds 0 ms).foldr Tree.shedAll bs) tree (ps.flatMap Patch.image) ∧
      apply source edits false = .ok
        { source := { source with tree }, applied := edits.map (·.finding), edits := Patch.made 0 ps
          offsets := deltas (Patch.made 0 ps) } := by
  obtain ⟨ps, g, hps, hfilling, hfold, hdraft, hmade, -⟩ := fold_marks hk ms [] h hable
  have hfull : ∀ m ∈ ms, 0 < m.token.text.size := fun m hm => h.full m.token (List.mem_map_of_mem hm)
  have hresolve : ∀ e ∈ edits, ∀ p ∈ e.parts, (p.resolve source.tree 0).toOption.isSome = true := by
    intro e he p hp
    have hmem : (e.rule, p) ∈ tagged edits := List.mem_flatMap.mpr ⟨e, he, List.mem_map_of_mem hp⟩
    exact Mark.resolve_parts [] h hable (e.rule, p) (hrow.mem_iff.mp hmem)
  refine ⟨ps, g.tree, hps, hfilling, hdraft, ?_⟩
  rw [apply_ordered hrow (Mark.pairwise_parts hfull none 0) hedits hne hresolve hfold, hmade]
  rfl

end Batch

end Lintel
