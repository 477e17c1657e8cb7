import Lintel.Dispatch
import Lintel.Proofs.Cells
import Lintel.Style.KeywordSpacing

namespace Lintel

namespace Cell

def isBlank (c : Cell) : Bool :=
  c.kind matches .whitespace | .newline

def isLineComment (c : Cell) : Bool :=
  c.kind matches .lineComment | .docComment

def isBarrier (c : Cell) : Bool :=
  c.isLineComment || c.kind == .directive

end Cell

/-- A significant token and the trivia after it up to the next one. -/
structure Word where
  head : Cell
  gap : List Cell
  head_significant : head.isTrivia = false
  gap_trivia : ∀ c ∈ gap, c.isTrivia = true

namespace Word

def cells (w : Word) : List Cell :=
  w.head :: w.gap

def flatten (ws : List Word) : List Cell :=
  ws.flatMap cells

@[simp] theorem flatten_cons (w : Word) (ws : List Word) : flatten (w :: ws) = w.head :: (w.gap ++ flatten ws) :=
  rfl

end Word

structure Phrase where
  lead : List Cell
  words : List Word
  lead_trivia : ∀ c ∈ lead, c.isTrivia = true

namespace Phrase

def of : List Cell → Phrase
  | [] => ⟨[], [], by simp⟩
  | c :: cs =>
    let p := of cs
    if hc : c.isTrivia = true then ⟨c :: p.lead, p.words, by simpa [hc] using p.lead_trivia⟩
    else ⟨[], ⟨c, p.lead, by simpa using hc, p.lead_trivia⟩ :: p.words, by simp⟩

theorem append_of (cs : List Cell) : (of cs).lead ++ Word.flatten (of cs).words = cs := by
  induction cs with
  | nil => rfl
  | cons c cs ih =>
    rw [of]
    split
    · rw [List.cons_append, ih]
    · rw [List.nil_append, Word.flatten_cons, ih]

end Phrase

theorem Word.exists_words (cs : List Cell) :
    ∃ lead words, (∀ c ∈ lead, c.isTrivia = true) ∧ cs = lead ++ flatten words :=
  ⟨_, _, (Phrase.of cs).lead_trivia, (Phrase.append_of cs).symm⟩

def Span.hull? (ss : List Span) : Option Span := do
  return (← ss.head?).cover (← ss.getLast?)

namespace KeywordSpacing

open Word Zipper

inductive Ruling where
  | fine
  | pad
  | clear
  | decline
  deriving DecidableEq

def spacingOf? (w : Word) (rest : List Word) : Option Spacing :=
  if w.head.kind ∈ kinds then spacing? w.head.kind (some w.head.owner) (rest.head?.map (·.head.kind)) else none

def ruling (w : Word) (rest : List Word) : Ruling :=
  match spacingOf? w rest with
  | none => .fine
  | some .required => if w.gap.any (·.isBlank) || (w.gap.isEmpty && rest.isEmpty) then .fine else .pad
  | some .disallowed =>
    if !w.gap.any (·.isBlank) then .fine else if w.gap.any (·.isBarrier) then .decline else .clear

def blanks (offset : Nat) : List Cell → List (Span × Kind)
  | [] => []
  | c :: cs =>
    if c.isBlank then (⟨offset, c.text.size⟩, c.kind) :: blanks (offset + c.text.size) cs
    else blanks (offset + c.text.size) cs

def blankSpan? (offset : Nat) (gap : List Cell) : Option Span :=
  Span.hull? ((blanks offset gap).map (·.1))

theorem isSome_blankSpan? (offset : Nat) (gap : List Cell) :
    (blankSpan? offset gap).isSome = gap.any (·.isBlank) := by
  have hull : (blankSpan? offset gap).isSome = !(blanks offset gap).isEmpty := by
    rw [blankSpan?]
    cases h : (blanks offset gap) with
    | nil => rfl
    | cons b bs => simp [Span.hull?, List.getLast?_cons]
  rw [hull]
  clear hull
  induction gap generalizing offset with
  | nil => rfl
  | cons c cs ih => cases hc : c.isBlank <;> simp [blanks, hc, ih]

def findingAt (offset : Nat) (w : Word) (span : Span) (negation : String) : Finding :=
  { rule := id, span, args := [w.head.text, negation.toList, "followed".toList]
    secondary := [⟨offset, w.head.text.size⟩] }

def finding? (offset : Nat) (w : Word) (rest : List Word) : Option Finding :=
  match ruling w rest with
  | .fine => none
  | .pad => some (findingAt offset w ⟨offset + w.head.text.size, 0⟩ "")
  | .clear | .decline => (blankSpan? (offset + w.head.text.size) w.gap).map (findingAt offset w · " not")

def findings (offset : Nat) : List Word → List Finding
  | [] => []
  | w :: ws => (finding? offset w ws).toList ++ findings (offset + Cell.extent w.cells) ws

def findingsAt (z : Zipper) : List Finding :=
  if z.kind ∈ kinds then (check z).findings else []

theorem spanOf?_eq (zs : List Zipper) : spanOf? zs = Span.hull? (zs.map (·.span)) := by
  cases zs with
  | nil => rfl
  | cons z zs => simp [spanOf?, Span.hull?, List.getLast?_cons, List.getLast?_map]

theorem spaces_eq (zs : List Zipper) : spaces zs = zs.filter (·.cell.isBlank) :=
  rfl

theorem head?_cells {qs : List Zipper} {ws : List Word} (hqs : qs.map cell = flatten ws) :
    qs.head?.map cell = ws.head?.map (·.head) := by
  rw [← List.head?_map, hqs]
  cases ws <;> rfl

theorem not_isTrivia_of_head? {qs : List Zipper} {ws : List Word} (htok : ∀ q ∈ qs, q.isToken = true)
    (hqs : qs.map cell = flatten ws) : ∀ q ∈ qs.head?, q.isTrivia = false := by
  intro q hq
  have hcell := head?_cells hqs
  rw [Option.mem_def.mp hq, Option.map_some] at hcell
  obtain ⟨w, -, hw⟩ := Option.map_eq_some_iff.mp hcell.symm
  rw [← isTrivia_cell (htok q (List.mem_of_mem_head? hq)), ← hw]
  exact w.head_significant

section Leaf

variable {k : Kind} {cs : List Tree} (hfill : Tree.FilledAll cs)

include hfill

theorem map_spaces {ms gs qs : List Zipper} (h : leaves (.node k cs) = ms ++ (gs ++ qs)) :
    (spaces gs).map (fun g => (g.span, g.kind)) = blanks (Cell.extent (ms.map cell)) (gs.map cell) := by
  induction gs generalizing ms with
  | nil => rfl
  | cons g gs ih =>
    have hspan := span_leaf hfill (show leaves (.node k cs) = ms ++ g :: (gs ++ qs) from h)
    have hsplit : leaves (.node k cs) = (ms ++ [g]) ++ (gs ++ qs) := by simpa using h
    have hrest := ih hsplit
    rw [List.map_append, Cell.extent_append] at hrest
    rw [spaces_eq] at hrest ⊢
    rw [List.filter_cons, List.map_cons, blanks]
    cases hg : g.cell.isBlank with
    | false => exact hrest
    | true =>
      rw [if_pos rfl, if_pos rfl, List.map_cons, hspan]
      exact congrArg _ hrest

variable {ls gs qs : List Zipper} {z : Zipper} {w : Word} {ws : List Word}
  (h : leaves (.node k cs) = ls ++ z :: (gs ++ qs)) (hz : z.cell = w.head) (hgs : gs.map cell = w.gap)
  (hqs : qs.map cell = flatten ws)

include h

omit hfill in
theorem isToken_leaf : z.isToken = true ∧ (∀ g ∈ gs, g.isToken = true) ∧ ∀ q ∈ qs, q.isToken = true := by
  have htok : ∀ y ∈ leaves (.node k cs), y.isToken = true := fun y hy => (root_leavesOf [] _ y hy).2
  rw [h] at htok
  exact ⟨htok z (by simp), fun g hg => htok g (by simp [hg]), fun q hq => htok q (by simp [hq])⟩

theorem gap_leaf (hgs : gs.map cell = w.gap) (hqs : qs.map cell = flatten ws) :
    gap z = gs ∧ z.nextSignificant? = qs.head? := by
  obtain ⟨-, htok, htok'⟩ := isToken_leaf h
  have htrivia : ∀ g ∈ gs, g.isTrivia = true := by
    intro g hg
    rw [← isTrivia_cell (htok g hg)]
    exact w.gap_trivia _ (by rw [← hgs]; exact List.mem_map_of_mem hg)
  have hnone : gs.find? (!·.isTrivia) = none := by simpa [List.find?_eq_none] using htrivia
  have hhead := not_isTrivia_of_head? htok' hqs
  rw [gap, followingWhile_eq, nextSignificant?, walkTo?_eq, ← following, following_leaf hfill h,
    List.takeWhile_append_of_pos htrivia, List.find?_append, hnone, Option.none_or]
  cases qs with
  | nil => simp
  | cons q qs =>
    have hq : q.isTrivia = false := hhead q (by simp)
    simp [hq]

include hz

omit hfill in
theorem up?_leaf : z.up?.map (·.kind) = some w.head.owner := by
  obtain ⟨hroot, htok⟩ := root_leavesOf [] (.node k cs) z (by rw [← leaves, h]; simp)
  obtain ⟨f, fs, habove⟩ := exists_frame hroot htok
  rw [← hz]
  simp [up?, habove, cell, kind, Frame.fill, Tree.kind]

include hgs

theorem map_spaces_leaf : (spaces gs).map (fun g => (g.span, g.kind)) =
    blanks (Cell.extent (ls.map cell) + w.head.text.size) w.gap := by
  have hsplit : leaves (.node k cs) = (ls ++ [z]) ++ (gs ++ qs) := by simpa using h
  have hspaces := map_spaces hfill hsplit
  rw [List.map_append, Cell.extent_append, List.map_singleton, hz, hgs] at hspaces
  exact hspaces

include hqs

theorem expected?_leaf :
    expected? z = spacing? w.head.kind (some w.head.owner) (ws.head?.map (·.head.kind)) := by
  have hkind : z.kind = w.head.kind := congrArg (·.kind) hz
  have hnext : qs.head?.map (·.kind) = ws.head?.map (·.head.kind) := by
    simpa [Function.comp_def, cell] using congrArg (Option.map (·.kind)) (head?_cells hqs)
  rw [expected?, hkind, up?_leaf h hz, (gap_leaf hfill h hgs hqs).2, hnext]

theorem spanOf?_leaf :
    spanOf? (spaces (gap z)) = blankSpan? (Cell.extent (ls.map cell) + w.head.text.size) w.gap := by
  rw [(gap_leaf hfill h hgs hqs).1, spanOf?_eq, blankSpan?, ← map_spaces_leaf hfill h hz hgs, List.map_map]
  rfl

theorem findingsAt_leaf : findingsAt z = (finding? (Cell.extent (ls.map cell)) w ws).toList := by
  have hkind : z.kind = w.head.kind := congrArg (·.kind) hz
  have hend : z.nextToken?.isNone = (w.gap.isEmpty && ws.isEmpty) := by
    have hcells : (gs ++ qs).map cell = w.gap ++ flatten ws := by rw [List.map_append, hgs, hqs]
    have hempty : (gs ++ qs).head?.isNone = ((gs ++ qs).map cell).isEmpty := by
      cases gs ++ qs <;> rfl
    rw [nextToken?_leaf hfill h, hempty, hcells]
    cases ws with
    | nil => simp [flatten]
    | cons w ws => simp
  have hnode : z.isNode = false := by
    rw [isNode, Tree.isNode_eq, show z.focus.isToken = true from (isToken_leaf h).1]
    rfl
  have hspan := span_leaf hfill h
  rw [hz] at hspan
  have hfinding : ∀ s n, finding z s n = findingAt (Cell.extent (ls.map cell)) w s n := by
    intro s n
    rw [finding, findingAt, hspan, ← hz]
    rfl
  have hblank := isSome_blankSpan? (Cell.extent (ls.map cell) + w.head.text.size) w.gap
  rw [findingsAt, check, hnode, hend, expected?_leaf hfill h hz hgs hqs, spanOf?_leaf hfill h hz hgs hqs, finding?,
    ruling, spacingOf?, hkind, hspan]
  simp only [hfinding]
  by_cases hk : w.head.kind ∈ kinds
  · rw [if_pos hk, if_pos hk]
    generalize spacing? w.head.kind (some w.head.owner) (ws.head?.map (·.head.kind)) = spacing
    generalize w.gap.any (·.isBarrier) = barred
    cases hb : blankSpan? (Cell.extent (ls.map cell) + w.head.text.size) w.gap with
    | none =>
      rw [← hblank, hb]
      generalize (w.gap.isEmpty && ws.isEmpty) = ends
      rcases spacing with _ | (_ | _) <;> cases ends <;> rfl
    | some s =>
      have hgap : w.gap.isEmpty = false := by
        cases hg : w.gap with
        | nil =>
          rw [hb, hg] at hblank
          simp at hblank
        | cons c gap => rfl
      rw [← hblank, hb, hgap]
      rcases spacing with _ | (_ | _) <;> cases barred <;> rfl
  · rw [if_neg hk, if_neg hk]
    rfl

end Leaf

theorem not_mem_kinds_of_isTrivia {k : Kind} (h : k.isTrivia = true) : k ∉ kinds := by
  intro hk
  have hall : ∀ k ∈ kinds, k.isTrivia = false := by decide
  simp [hall k hk] at h

theorem findingsAt_trivia {z : Zipper} (h : z.cell.isTrivia = true) : findingsAt z = [] :=
  if_neg (not_mem_kinds_of_isTrivia h)

theorem flatMap_findingsAt {k : Kind} {cs : List Tree} (hfill : Tree.FilledAll cs) {ls rs : List Zipper}
    {ws : List Word} (h : leaves (.node k cs) = ls ++ rs) (hrs : rs.map cell = flatten ws) :
    rs.flatMap findingsAt = findings (Cell.extent (ls.map cell)) ws := by
  induction ws generalizing ls rs with
  | nil =>
    rw [List.map_eq_nil_iff.mp hrs]
    rfl
  | cons w ws ih =>
    rw [flatten_cons] at hrs
    obtain ⟨z, rest, rfl, hz, hrest⟩ := List.map_eq_cons_iff.mp hrs
    obtain ⟨gs, qs, rfl, hgs, hqs⟩ := List.map_eq_append_iff.mp hrest
    have hgap : gs.flatMap findingsAt = [] := by
      rw [List.flatMap_eq_nil_iff]
      intro g hg
      exact findingsAt_trivia (w.gap_trivia _ (by rw [← hgs]; exact List.mem_map_of_mem hg))
    have hsplit : leaves (.node k cs) = (ls ++ z :: gs) ++ qs := by simpa using h
    rw [List.flatMap_cons, List.flatMap_append, hgap, List.nil_append, ih hsplit hqs,
      findingsAt_leaf hfill h hz hgs hqs, findings, List.map_append, Cell.extent_append, List.map_cons, hz, hgs]
    rfl

theorem rulesFor_eq {d : Dispatch} (hrules : d.registry.rules = [rule]) (honly : d.only.all (·.contains id) = true)
    (k : Kind) : d.rulesFor k = if k ∈ kinds then [rule] else [] := by
  have hkinds : kinds.filter (· == k) = if k ∈ kinds then [k] else [] := by
    have hnodup : kinds.Nodup := by decide
    rw [List.filter_beq, hnodup.count]
    split <;> rfl
  have hreg : d.registry.rulesFor k = if k ∈ kinds then [rule] else [] := by
    rw [Registry.rulesFor, hrules, List.flatMap_singleton, show rule.kinds = kinds from rfl, hkinds]
    split <;> rfl
  rw [Dispatch.rulesFor, hreg]
  split
  · exact List.filter_eq_self.mpr (by simpa [show rule.id = id from rfl] using honly)
  · rfl

theorem visit_eq {d : Dispatch} (hrules : d.registry.rules = [rule]) (honly : d.only.all (·.contains id) = true)
    (source : Source) (z : Zipper) : d.visit source z = .ok (findingsAt z) := by
  rw [Dispatch.visit, rulesFor_eq hrules honly, findingsAt]
  split
  · simp [Dispatch.runCheck, rule, pure, Except.pure, bind, Except.bind]
  · rfl

theorem collectFrom_eq {d : Dispatch} (hrules : d.registry.rules = [rule])
    (honly : d.only.all (·.contains id) = true) (source : Source) (n : Nat) (zs : List Zipper) :
    d.collectFrom source false n zs = .ok (zs.flatMap findingsAt) := by
  induction zs generalizing n with
  | nil => rfl
  | cons z zs ih =>
    simp [Dispatch.collectFrom, visit_eq hrules honly, ih, bind, Except.bind, pure, Except.pure]

theorem findingsAt_node (z : Zipper) (h : z.isNode = true) : findingsAt z = [] := by
  rw [findingsAt, check, h, Bool.true_or, if_pos rfl]
  split <;> rfl

theorem mem_findings {offset : Nat} {ws : List Word} {f : Finding} (h : f ∈ findings offset ws) :
    ∃ offset w s n, f = findingAt offset w s n := by
  induction ws generalizing offset with
  | nil => simp [findings] at h
  | cons w ws ih =>
    rw [findings, List.mem_append, Option.mem_toList] at h
    obtain h | h := h
    · rw [finding?] at h
      split at h
      · simp at h
      · exact ⟨_, _, _, _, (Option.some.inj h).symm⟩
      · obtain ⟨s, -, rfl⟩ := Option.map_eq_some_iff.mp h
        exact ⟨_, _, _, _, rfl⟩
      · obtain ⟨s, -, rfl⟩ := Option.map_eq_some_iff.mp h
        exact ⟨_, _, _, _, rfl⟩
    · exact ih h

theorem findings_leaves {k : Kind} {cs : List Tree} (hfill : Tree.FilledAll cs) {lead : List Cell} {ws : List Word}
    (hlead : ∀ c ∈ lead, c.isTrivia = true) (h : Tree.cellsAll k cs = lead ++ flatten ws) :
    (leaves (.node k cs)).flatMap findingsAt = findings (Cell.extent lead) ws := by
  have hmap := map_cell_leavesAll k [] [] cs
  rw [h] at hmap
  obtain ⟨ls, rs, hleaves, hls, hrs⟩ := List.map_eq_append_iff.mp hmap
  have hsplit : leaves (.node k cs) = ls ++ rs := hleaves
  have hnone : ls.flatMap findingsAt = [] := by
    rw [List.flatMap_eq_nil_iff]
    intro z hz
    exact findingsAt_trivia (hlead _ (by rw [← hls]; exact List.mem_map_of_mem hz))
  rw [hsplit, List.flatMap_append, hnone, List.nil_append, flatMap_findingsAt hfill hsplit hrs, hls]

theorem collectPrimary_eq {d : Dispatch} (hrules : d.registry.rules = [rule])
    (honly : d.only.all (·.contains id) = true) {source : Source} {k : Kind} {cs : List Tree}
    (htree : source.tree = .node k cs) (hfill : Tree.FilledAll cs) {lead : List Cell} {ws : List Word}
    (hlead : ∀ c ∈ lead, c.isTrivia = true) (h : Tree.cellsAll k cs = lead ++ flatten ws) :
    d.collectPrimary source false = .ok (findings (Cell.extent lead) ws) := by
  have hcollect : d.collect source false = .ok (findings (Cell.extent lead) ws) := by
    rw [Dispatch.collect, collectFrom_eq hrules honly, preorder, ofRoot, htree]
    rw [flatMap_preorderOf findingsAt_node, ← leaves, findings_leaves hfill hlead h]
  rw [Dispatch.collectPrimary, hcollect]
  refine congrArg Except.ok (List.filter_eq_self.mpr ?_)
  intro f hf
  obtain ⟨_, _, _, _, rfl⟩ := mem_findings hf
  rfl

end KeywordSpacing

end Lintel
