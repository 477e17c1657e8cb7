import Mathlib.Data.List.DropRight
import Mathlib.Data.List.Sort
import Mathlib.Data.Prod.Lex
import Mathlib.Order.Monotone.Basic
import Lintel.Proofs.TextCuts
import Lintel.Text.Position

namespace Lintel

def Text.IsBoundary (t : Text) (offset : Nat) : Prop :=
  ∃ p q, t = p ++ q ∧ p.size = offset

namespace Text

def lastLine (p : Text) : Text :=
  p.rtakeWhile (· != '\n')

def beforeLastLine (p : Text) : Text :=
  p.rdropWhile (· != '\n')

theorem beforeLastLine_append_lastLine (p : Text) : p.beforeLastLine ++ p.lastLine = p :=
  List.rdropWhile_append_rtakeWhile

theorem beforeLastLine_cases (p : Text) : p.beforeLastLine = [] ∨ ∃ f, p.beforeLastLine = f ++ ['\n'] := by
  by_cases h : p.beforeLastLine = []
  · exact .inl h
  · have hlast : p.beforeLastLine.getLast h = '\n' := by
      simpa [beforeLastLine] using List.rdropWhile_last_not _ _ h
    exact .inr ⟨p.beforeLastLine.dropLast, by rw [← hlast, List.dropLast_append_getLast]⟩

theorem lastLine_append {c : Text} (p : Text) (hc : '\n' ∉ c) : (p ++ c).lastLine = p.lastLine ++ c := by
  induction c using List.reverseRecOn with
  | nil => simp
  | append_singleton c x ih =>
    simp only [List.mem_append, List.mem_singleton, not_or] at hc
    rw [← List.append_assoc, lastLine, List.rtakeWhile_concat_pos _ _ _ (by simpa using Ne.symm hc.2)]
    exact (congrArg (· ++ [x]) (ih hc.1)).trans (List.append_assoc ..)

end Text

theorem length_filter_of_cut {α : Type} {p : α → Bool} {l : List α} {n : Nat} (hn : n ≤ l.length)
    (hfront : ∀ x ∈ l.take n, p x = true) (hback : ∀ x ∈ l.drop n, ¬p x = true) : (l.filter p).length = n := by
  rw [← List.take_append_drop n l, List.filter_append, List.filter_eq_self.mpr hfront, List.filter_eq_nil_iff.mpr hback,
    List.append_nil, List.length_take, Nat.min_eq_left hn]

namespace LineIndex

section Search

variable (starts : List Nat) (offset : Nat)

/-- Halves the stretch of `size` entries from `base` on until one is left: the last one that is not after the offset, if
there is such an entry. -/
def narrow (base size : Nat) (hsize : 0 < size) (hfit : base + size ≤ starts.length) : Fin starts.length :=
  if h : 1 < size then
    if offset < starts[base + size / 2] then narrow base (size - size / 2) (by omega) (by omega)
    else narrow (base + size / 2) (size - size / 2) (by omega) (by omega)
  else ⟨base, by omega⟩
termination_by size

def search : Except Nat Nat :=
  if h : 0 < starts.length then
    let i := narrow starts offset 0 starts.length h (by omega)
    if starts[i] = offset then .ok i
    else if starts[i] < offset then .error (i + 1)
    else .error i
  else .error 0

def searchLine (x : LineIndex) (offset : Nat) : Nat :=
  match search x.starts offset with
  | .ok i => i
  | .error i => i - 1

structure Brackets (base stop : Nat) : Prop where
  start : ∀ h : base < starts.length, base = 0 ∨ starts[base] ≤ offset
  after : ∀ j (hj : j < starts.length), stop ≤ j → offset < starts[j]

variable {starts offset}

theorem narrow_brackets (hsorted : starts.SortedLE) {base size : Nat} (hsize : 0 < size)
    (hfit : base + size ≤ starts.length) (h : Brackets starts offset base (base + size)) :
    let i := narrow starts offset base size hsize hfit
    Brackets starts offset i (i + 1) := by
  fun_induction narrow starts offset base size hsize hfit with
  | case1 base size hsize hfit hmany hlt ih =>
    refine ih ⟨h.start, fun j hj hfrom => ?_⟩
    have hmid : starts[base + size / 2] ≤ starts[j] := hsorted.getElem_le_getElem_of_le (by omega)
    omega
  | case2 base size hsize hfit hmany hle ih =>
    exact ih ⟨fun _ => .inr (Nat.le_of_not_lt hle), fun j hj hfrom => h.after j hj (by omega)⟩
  | case3 base size hsize hfit hone =>
    refine ⟨h.start, fun j hj hfrom => h.after j hj ?_⟩
    dsimp only at hfrom
    omega

theorem length_filter_of_brackets (hsorted : starts.SortedLE) {i : Nat} (hi : i < starts.length)
    (h : Brackets starts offset i (i + 1)) :
    (starts.filter (· ≤ offset)).length = if starts[i] ≤ offset then i + 1 else 0 := by
  split
  · rename_i hle
    apply length_filter_of_cut (by omega)
    · intro x hx
      obtain ⟨j, hj, rfl⟩ := List.mem_take_iff_getElem.mp hx
      have : starts[j] ≤ starts[i] := hsorted.getElem_le_getElem_of_le (by omega)
      simp only [decide_eq_true_eq]
      omega
    · intro x hx
      obtain ⟨j, hj, rfl⟩ := List.mem_drop_iff_getElem.mp hx
      have := h.after (i + 1 + j) (by omega) (by omega)
      simp only [decide_eq_true_eq]
      omega
  · rename_i hlt
    -- Only the first entry can be left although it is after the offset.
    have hzero : i = 0 := (h.start hi).resolve_right hlt
    rw [List.length_eq_zero_iff, List.filter_eq_nil_iff]
    intro x hx
    obtain ⟨j, hj, rfl⟩ := List.mem_iff_getElem.mp hx
    have : starts[i] ≤ starts[j] := hsorted.getElem_le_getElem_of_le (by omega)
    simp only [decide_eq_true_eq]
    omega

theorem searchLine_eq {x : LineIndex} (hsorted : x.starts.SortedLE) (offset : Nat) :
    x.searchLine offset = x.lineAt offset := by
  unfold searchLine search lineAt
  by_cases h : 0 < x.starts.length
  · have hbrackets : Brackets x.starts offset _ _ :=
      narrow_brackets hsorted h (by omega) ⟨fun _ => .inl rfl, fun j hj hle => by omega⟩
    have hstart := hbrackets.start (Fin.isLt _)
    rw [dif_pos h, length_filter_of_brackets hsorted (Fin.isLt _) hbrackets]
    simp only [Fin.getElem_fin]
    split_ifs <;> simp <;> omega
  · have hnil : x.starts = [] := List.length_eq_zero_iff.mp (by omega)
    simp [hnil]

end Search

section Table

variable (t : Text) (o : Nat)

theorem startsAfter_append (p q : Text) :
    startsAfter o (p ++ q) = startsAfter o p ++ startsAfter (o + p.size) q := by
  induction p generalizing o with
  | nil => rfl
  | cons c p ih =>
    by_cases hc : c = '\n'
    · subst hc
      simp [startsAfter, ih, Nat.add_assoc, show Char.utf8Size '\n' = 1 from rfl]
    · simp [startsAfter, ih, hc, Nat.add_assoc]

theorem length_startsAfter : (startsAfter o t).length = t.count '\n' := by
  induction t generalizing o with
  | nil => rfl
  | cons c t ih => by_cases hc : c = '\n' <;> simp [startsAfter, hc, ih]

variable {t o}

theorem mem_startsAfter {x : Nat} : x ∈ startsAfter o t ↔ ∃ p q, t = p ++ '\n' :: q ∧ x = o + p.size + 1 := by
  constructor
  · intro hx
    induction t generalizing o with
    | nil => simp [startsAfter] at hx
    | cons c t ih =>
      by_cases hc : c = '\n'
      · subst hc
        simp only [startsAfter, BEq.rfl, if_true, List.mem_cons] at hx
        obtain rfl | hx := hx
        · exact ⟨[], t, rfl, rfl⟩
        · obtain ⟨p, q, rfl, rfl⟩ := ih hx
          exact ⟨'\n' :: p, q, rfl, by simp [Nat.add_assoc, show Char.utf8Size '\n' = 1 from rfl]⟩
      · simp only [startsAfter, beq_iff_eq, hc, if_false] at hx
        obtain ⟨p, q, rfl, rfl⟩ := ih hx
        exact ⟨c :: p, q, rfl, by simp [Nat.add_assoc]⟩
  · rintro ⟨p, q, rfl, rfl⟩
    simp [startsAfter_append, startsAfter]

theorem lt_of_mem_startsAfter {x : Nat} (hx : x ∈ startsAfter o t) : o < x ∧ x ≤ o + t.size := by
  obtain ⟨p, q, rfl, rfl⟩ := mem_startsAfter.mp hx
  simp only [Text.size_append, Text.size_cons, show Char.utf8Size '\n' = 1 from rfl]
  omega

theorem sorted_startsAfter : (startsAfter o t).SortedLE := by
  apply List.Pairwise.sortedLE
  induction t generalizing o with
  | nil => exact .nil
  | cons c t ih =>
    rw [startsAfter]
    split
    · exact .cons (fun x hx => Nat.le_of_lt (lt_of_mem_startsAfter hx).1) ih
    · exact ih

theorem sorted_starts (t : Text) : (ofText t).starts.SortedLE :=
  (List.Pairwise.cons (fun x _ => Nat.zero_le x) (sorted_startsAfter (t := t)).pairwise).sortedLE

theorem lineAt_lt_count (t : Text) (offset : Nat) : (ofText t).lineAt offset < (ofText t).count := by
  have hle := List.length_filter_le (· ≤ offset) (ofText t).starts
  have hpos : 0 < (ofText t).starts.length := by simp [ofText]
  rw [lineAt, count]
  omega

theorem lineAt_boundary (p q : Text) : (ofText (p ++ q)).lineAt p.size = p.count '\n' := by
  have hfront : (startsAfter 0 p).filter (· ≤ p.size) = startsAfter 0 p := by
    rw [List.filter_eq_self]
    intro x hx
    have := (lt_of_mem_startsAfter hx).2
    simp only [decide_eq_true_eq]
    omega
  have hback : (startsAfter (0 + p.size) q).filter (· ≤ p.size) = [] := by
    rw [List.filter_eq_nil_iff]
    intro x hx
    have := (lt_of_mem_startsAfter hx).1
    simp only [decide_eq_true_eq]
    omega
  rw [lineAt, ofText, startsAfter_append, List.filter_cons_of_pos (by simp), List.filter_append, hfront, hback,
    List.append_nil, List.length_cons, length_startsAfter, Nat.add_sub_cancel]

end Table

section Columns

theorem count_beforeLastLine (p : Text) : p.beforeLastLine.count '\n' = p.count '\n' := by
  have hlast : p.lastLine.count '\n' = 0 := by
    rw [List.count_eq_zero]
    intro hmem
    simpa using List.mem_rtakeWhile_imp hmem
  calc p.beforeLastLine.count '\n'
      = (p.beforeLastLine ++ p.lastLine).count '\n' := by rw [List.count_append, hlast, Nat.add_zero]
    _ = p.count '\n' := by rw [Text.beforeLastLine_append_lastLine]

theorem getElem?_starts (p q : Text) : (ofText (p ++ q)).starts[p.count '\n']? = some p.beforeLastLine.size := by
  have hcut : p ++ q = p.beforeLastLine ++ (p.lastLine ++ q) := by
    rw [← List.append_assoc, Text.beforeLastLine_append_lastLine]
  rw [← count_beforeLastLine, hcut, ofText]
  obtain hnil | ⟨f, hf⟩ := p.beforeLastLine_cases
  · rw [hnil]
    rfl
  · rw [hf, List.append_assoc, startsAfter_append]
    simp [startsAfter, length_startsAfter, show Char.utf8Size '\n' = 1 from rfl]

theorem slice?_middle (a b c : Text) : Text.slice? (a ++ (b ++ c)) a.size (a ++ b).size = some b := by
  have hlength : (a ++ b).size - a.size = b.size := by
    rw [Text.size_append]
    omega
  rw [Text.slice?, Text.splitAt?_append, hlength]
  simp [Text.splitAt?_append]

theorem position_of_cut {t p q : Text} {offset : Nat} (ht : t = p ++ q) (hoffset : p.size = min offset t.size) :
    (ofText t).position t offset = ⟨p.count '\n' + 1, p.lastLine.length + 1⟩ := by
  have hcut := p.beforeLastLine_append_lastLine
  have hstart : min p.beforeLastLine.size p.size = p.beforeLastLine.size := by
    rw [← congrArg Text.size hcut, Text.size_append]
    omega
  have hslice := slice?_middle p.beforeLastLine p.lastLine q
  rw [← List.append_assoc, hcut] at hslice
  subst ht
  simp only [position, ← hoffset, lineAt_boundary, getElem?_starts, Option.getD_some, hstart, hslice, Option.elim_some]

end Columns

end LineIndex

def Position.key (p : Position) : Nat ×ₗ Nat :=
  toLex (p.line, p.column)

namespace LineIndex

theorem key_lt_of_append {t p c q : Text} {a b : Nat} (ht : t = p ++ (c ++ q)) (hc : c ≠ [])
    (ha : p.size = min a t.size)
    (hb : (p ++ c).size = min b t.size) : ((ofText t).position t a).key < ((ofText t).position t b).key := by
  rw [position_of_cut ht ha, position_of_cut (ht.trans (List.append_assoc ..).symm) hb, Position.key, Position.key,
    Prod.Lex.toLex_lt_toLex]
  by_cases hfeed : '\n' ∈ c
  · have hcount := List.count_pos_iff.mpr hfeed
    left
    simp only [List.count_append]
    omega
  · have hcount := List.count_eq_zero.mpr hfeed
    have hlength := List.length_pos_iff.mpr hc
    right
    simp only [List.count_append, Text.lastLine_append p hfeed, List.length_append]
    omega

theorem strictMonoOn_position (t : Text) :
    StrictMonoOn (fun o => ((ofText t).position t o).key) {o | t.IsBoundary o} := by
  rintro _ ⟨p, q, ht, rfl⟩ _ ⟨r, s, hr, rfl⟩ hlt
  obtain ⟨c, rfl, rfl⟩ := Text.exists_of_append_eq (ht.symm.trans hr) (Nat.le_of_lt hlt)
  refine key_lt_of_append ht ?_ ?_ ?_
  · rintro rfl
    simp at hlt
  · simp [ht]
  · simp [ht, ← Nat.add_assoc]

theorem sameLine_iff_of_le {a b : Nat} (t : Text) (hab : a ≤ b) :
    (ofText t).sameLine a b = true ↔ ∀ p q, t = p ++ '\n' :: q → p.size < b → p.size < a := by
  have hfilter : (ofText t).starts.filter (· ≤ a) = ((ofText t).starts.filter (· ≤ b)).filter (· ≤ a) := by
    rw [List.filter_filter]
    apply List.filter_congr
    intro x _
    simp only [← Bool.decide_and, decide_eq_decide]
    omega
  have hpos (o : Nat) : 0 < ((ofText t).starts.filter (· ≤ o)).length :=
    List.length_pos_of_mem (List.mem_filter.mpr ⟨List.mem_cons_self (a := 0), by simp⟩)
  have hlength : (ofText t).sameLine a b = true ↔
      (((ofText t).starts.filter (· ≤ b)).filter (· ≤ a)).length = ((ofText t).starts.filter (· ≤ b)).length := by
    have ha := hpos a
    have hb := hpos b
    rw [hfilter] at ha
    rw [sameLine, beq_iff_eq, lineAt, lineAt, hfilter]
    omega
  rw [hlength, List.length_filter_eq_length_iff]
  constructor
  · intro h p q ht hb
    have hmem : p.size + 1 ∈ (ofText t).starts :=
      List.mem_cons_of_mem _ (mem_startsAfter.mpr ⟨p, q, ht, by omega⟩)
    have := h (p.size + 1) (List.mem_filter.mpr ⟨hmem, decide_eq_true hb⟩)
    simp only [decide_eq_true_eq] at this
    omega
  · intro h x hx
    obtain ⟨hmem, hb⟩ := List.mem_filter.mp hx
    simp only [decide_eq_true_eq] at hb ⊢
    obtain rfl | hx := List.mem_cons.mp hmem
    · exact Nat.zero_le a
    · obtain ⟨p, q, ht, rfl⟩ := mem_startsAfter.mp hx
      have := h p q ht (by omega)
      omega

theorem sameLine_iff (t : Text) (a b : Nat) :
    (ofText t).sameLine a b = true ↔ ∀ p q, t = p ++ '\n' :: q → ¬(min a b ≤ p.size ∧ p.size < max a b) := by
  have hcomm : (ofText t).sameLine a b = (ofText t).sameLine b a := Bool.beq_comm
  obtain hab | hba := Nat.le_total a b
  · rw [sameLine_iff_of_le t hab, Nat.min_eq_left hab, Nat.max_eq_right hab]
    simp only [not_and', Nat.not_le]
  · rw [hcomm, sameLine_iff_of_le t hba, Nat.min_eq_right hba, Nat.max_eq_left hba]
    simp only [not_and', Nat.not_le]

/-- A search that halves the table of a text finds the line of an offset, which is a line of the text. The position of a
boundary counts the line feeds before it and the characters after the last of these; an offset past the end counts as
the end. Positions grow strictly with the boundaries. Two offsets are on one line if no line feed lies between them,
and then their positions have the same line. -/
theorem positions_count (t : Text) :
    let x := ofText t
    (∀ o, x.searchLine o = x.lineAt o ∧ x.lineAt o < x.count) ∧
      (∀ o p q, t = p ++ q → p.size = min o t.size →
        x.position t o = ⟨1 + p.count '\n', 1 + p.lastLine.length⟩) ∧
      StrictMonoOn (fun o => (x.position t o).key) {o | t.IsBoundary o} ∧
      Set.InjOn (x.position t) {o | t.IsBoundary o} ∧
      ∀ a b, a ≤ t.size → b ≤ t.size →
        (x.sameLine a b = true ↔ ∀ p q, t = p ++ '\n' :: q → ¬(min a b ≤ p.size ∧ p.size < max a b)) ∧
          (x.sameLine a b = true ↔ (x.position t a).line = (x.position t b).line) := by
  intro x
  refine ⟨fun o => ⟨searchLine_eq (sorted_starts t) o, lineAt_lt_count t o⟩, ?_, strictMonoOn_position t, ?_, ?_⟩
  · intro o p q ht ho
    rw [Nat.add_comm 1, Nat.add_comm 1]
    exact position_of_cut ht ho
  · intro a ha b hb hsame
    exact (strictMonoOn_position t).injOn ha hb (congrArg Position.key hsame)
  · intro a b ha hb
    refine ⟨sameLine_iff t a b, ?_⟩
    rw [sameLine, beq_iff_eq, position, position, Nat.min_eq_left ha, Nat.min_eq_left hb]
    exact (Nat.add_right_cancel_iff).symm

def accented : Text :=
  ['é', '\n', 'b']

theorem positions_count_accented :
    accented.IsBoundary 3 ∧ (ofText accented).position accented 3 = ⟨2, 1⟩ ∧
      (ofText accented).position accented 9 = ⟨2, 2⟩ ∧ (ofText accented).sameLine 1 2 = true ∧
      (ofText accented).sameLine 2 3 = false := by
  obtain ⟨-, hposition, -, -, hsame⟩ := positions_count accented
  refine ⟨⟨['é', '\n'], ['b'], rfl, rfl⟩, hposition 3 ['é', '\n'] ['b'] rfl rfl, hposition 9 accented [] rfl rfl, ?_,
    ?_⟩
  · exact (hsame 1 2 (by decide) (by decide)).2.mpr (by decide)
  · rw [← Bool.not_eq_true, (hsame 2 3 (by decide) (by decide)).1]
    intro hnone
    exact hnone ['é'] ['b'] rfl (by decide)

end LineIndex

end Lintel
