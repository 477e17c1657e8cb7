import Lintel.Proofs.BatchAccounting
import Lintel.Proofs.OffsetMaps

/-!
Where the offsets of a text go when a batch of edits is made. An offset goes to the size of what comes before it once
the edits before it are made, and one inside an edited stretch goes into what replaced that. A stretch that no edit
touches is found where its ends go, with the text that was inserted right before it.
-/

namespace Lintel

namespace Text

theorem bytes_eq_nil {t : Text} : t.bytes = [] ↔ t = [] := by
  rw [← List.length_eq_zero_iff, length_bytes, size_eq_zero]

end Text

def Span.bytesOf (s : Span) (t : Text) : List UInt8 :=
  (t.bytes.drop s.start).take s.length

namespace Applied

def spliceBytesFrom (bs : List UInt8) (cursor : Nat) : List Applied → List UInt8
  | [] => bs.drop cursor
  | a :: rest =>
    (bs.drop cursor).take (a.span.start - cursor) ++ a.replacement.bytes ++
      spliceBytesFrom bs (max cursor a.span.stop) rest

def spliceBytes (bs : List UInt8) (edits : List Applied) : List UInt8 :=
  spliceBytesFrom bs 0 (edits.mergeSort before)

/-- Whether all of the edit lies before an offset; an insertion at the offset does not. -/
def endsBy (a : Applied) (offset : Nat) : Bool :=
  a.span.stop ≤ offset && !(a.span.isEmpty && a.span.start == offset)

def delta (a : Applied) : Delta :=
  ⟨a.span, a.replacement.size⟩

theorem isPassed_delta (a : Applied) (offset : Nat) : a.delta.isPassed offset = a.endsBy offset := rfl

theorem endsBy_iff (a : Applied) (offset : Nat) :
    a.endsBy offset = true ↔ a.span.stop ≤ offset ∧ (a.span.length = 0 → a.span.start ≠ offset) :=
  Delta.isPassed_iff a.delta offset

theorem endsBy_of_leads {a b : Applied} (h : a.span.leads b.span) {offset : Nat} (hb : b.endsBy offset = true) :
    a.endsBy offset = true := by
  rw [endsBy_iff] at hb ⊢
  simp only [Span.leads, Span.stop] at h hb ⊢
  omega

theorem spliceBytesFrom_append {bs : List UInt8} {cursor m : Nat} {pre post : List Applied} (hcursor : cursor ≤ m)
    (hpre : ∀ a ∈ pre, a.span.stop ≤ m) (hpost : ∀ a ∈ post, m ≤ a.span.start) :
    spliceBytesFrom bs cursor (pre ++ post) = spliceBytesFrom (bs.take m) cursor pre ++ spliceBytesFrom bs m post := by
  induction pre generalizing cursor with
  | nil =>
    have hsum : cursor + (m - cursor) = m := by omega
    rw [List.nil_append, spliceBytesFrom, List.drop_take]
    cases post with
    | nil =>
      have hdrop : bs.drop m = (bs.drop cursor).drop (m - cursor) := by rw [List.drop_drop, hsum]
      rw [spliceBytesFrom, spliceBytesFrom, hdrop, List.take_append_drop]
    | cons b post =>
      have hb := hpost b List.mem_cons_self
      have hstop : max cursor b.span.stop = max m b.span.stop := by
        simp only [Span.stop]
        omega
      have hstart : b.span.start - cursor = (m - cursor) + (b.span.start - m) := by omega
      rw [spliceBytesFrom, spliceBytesFrom, hstop, hstart, List.take_add, List.drop_drop, hsum]
      simp only [List.append_assoc]
  | cons a pre ih =>
    have ha := hpre a List.mem_cons_self
    have hstart : a.span.start - cursor ≤ m - cursor := by
      simp only [Span.stop] at ha
      omega
    rw [List.cons_append, spliceBytesFrom, spliceBytesFrom,
      ih (by omega) (fun b hb => hpre b (List.mem_cons_of_mem _ hb)),
      List.drop_take, List.take_take, Nat.min_eq_left hstart]
    simp only [List.append_assoc]

theorem length_spliceBytesFrom {bs : List UInt8} {cursor : Nat} {edits : List Applied} (hcursor : cursor ≤ bs.length)
    (hin : ∀ a ∈ edits, cursor ≤ a.span.start ∧ a.span.stop ≤ bs.length)
    (horder : edits.Pairwise (fun a b => a.span.leads b.span)) :
    ((spliceBytesFrom bs cursor edits).length : Int) = bs.length - cursor + OffsetMap.growth (edits.map delta) := by
  induction edits generalizing cursor with
  | nil =>
    rw [spliceBytesFrom, List.length_drop, List.map_nil, OffsetMap.growth_nil]
    omega
  | cons a edits ih =>
    obtain ⟨hfirst, hrest⟩ := List.pairwise_cons.mp horder
    obtain ⟨hstart, hstop⟩ := hin a List.mem_cons_self
    have hlength : a.span.stop = a.span.start + a.span.length := rfl
    have hmax : max cursor a.span.stop = a.span.stop := by omega
    have hlater := ih hstop (fun b hb => ⟨(hfirst b hb).1, (hin b (List.mem_cons_of_mem _ hb)).2⟩) hrest
    rw [spliceBytesFrom, hmax, List.map_cons, OffsetMap.growth_cons, List.length_append, List.length_append,
      List.length_take, List.length_drop, Text.length_bytes]
    simp only [Delta.growth, delta]
    omega

theorem spliceBytesFrom_insertions {bs : List UInt8} {offset : Nat} {edits : List Applied}
    (h : ∀ a ∈ edits, a.span = ⟨offset, 0⟩) :
    spliceBytesFrom bs offset edits = edits.flatMap (·.replacement.bytes) ++ bs.drop offset := by
  induction edits with
  | nil => rfl
  | cons a edits ih =>
    have ha := h a List.mem_cons_self
    have hmax : max offset a.span.stop = offset := by
      rw [ha]
      exact Nat.max_self offset
    rw [spliceBytesFrom, hmax, ih (fun b hb => h b (List.mem_cons_of_mem _ hb)), ha, Nat.sub_self, List.take_zero,
      List.nil_append, List.flatMap_cons, List.append_assoc]

end Applied

namespace Spliced

theorem within {offset : Nat} {t out : Text} {edits : List Applied} (h : Spliced offset t edits out) :
    ∀ a ∈ edits, a.span.stop ≤ offset + t.size := by
  induction h with
  | rest => exact nofun
  | @edit offset kept gone rest out a edits hstart hlength h ih =>
    have hstop : a.span.stop = a.span.start + a.span.length := rfl
    rw [Text.size_append, Text.size_append]
    intro b hb
    obtain rfl | hb := List.mem_cons.mp hb
    · omega
    · have hle := ih b hb
      omega

theorem spliceBytesFrom_eq {offset : Nat} {t out : Text} {edits : List Applied} (h : Spliced offset t edits out)
    (before : List UInt8) (hbefore : before.length = offset) :
    Applied.spliceBytesFrom (before ++ t.bytes) offset edits = out.bytes := by
  induction h generalizing before with
  | rest offset t => rw [Applied.spliceBytesFrom, ← hbefore, List.drop_left]
  | @edit offset kept gone rest out a edits hstart hlength h ih =>
    have hstop : a.span.stop = a.span.start + a.span.length := rfl
    have hmax : max offset a.span.stop = a.span.stop := by omega
    have hkept : a.span.start - offset = kept.bytes.length := by
      rw [Text.length_bytes]
      omega
    have hrest := ih (before ++ kept.bytes ++ gone.bytes) (by
      simp only [List.length_append, Text.length_bytes]
      omega)
    have hwhole : before ++ (kept ++ gone ++ rest).bytes = before ++ kept.bytes ++ gone.bytes ++ rest.bytes := by
      simp only [Text.bytes_append, List.append_assoc]
    rw [Applied.spliceBytesFrom, hmax, hwhole, hrest, hkept, ← hbefore]
    simp only [List.append_assoc, List.drop_left, List.take_left, Text.bytes_append]

end Spliced

theorem filter_append_filter_not {α : Type} {p : α → Bool} {l : List α}
    (h : l.Pairwise (fun a b => p b = true → p a = true)) : l.filter p ++ l.filter (fun a => !p a) = l := by
  induction l with
  | nil => rfl
  | cons a l ih =>
    obtain ⟨hfirst, hrest⟩ := List.pairwise_cons.mp h
    cases ha : p a with
    | true => rw [List.filter_cons_of_pos ha, List.filter_cons_of_neg (by simp [ha]), List.cons_append, ih hrest]
    | false =>
      have hnone : ∀ b ∈ l, p b = false := by
        intro b hb
        rw [← Bool.not_eq_true]
        intro hpb
        rw [hfirst b hb hpb] at ha
        cases ha
      rw [List.filter_eq_nil_iff.mpr (by simpa [ha] using hnone), List.nil_append, List.filter_eq_self]
      simpa [ha] using hnone

section Ordered

open Applied OffsetMap

variable {bs : List UInt8} {ordered : List Applied} (horder : ordered.Pairwise (fun a b => a.span.leads b.span))
  {offset : Nat}

include horder

theorem length_carried {pre : List Applied} (hsub : pre.Sublist ordered) (hoffset : offset ≤ bs.length)
    (hpre : ∀ a ∈ pre, a.span.stop ≤ offset) :
    ((spliceBytesFrom (bs.take offset) 0 pre).length : Int) = offset + growth (pre.map delta) := by
  have htake : (bs.take offset).length = offset := by
    rw [List.length_take]
    omega
  rw [length_spliceBytesFrom (Nat.zero_le _) (fun a ha => ⟨Nat.zero_le _, htake.symm ▸ hpre a ha⟩)
    (horder.sublist hsub), htake]
  omega

theorem carried_outside (hoffset : offset ≤ bs.length)
    (hout : ∀ a ∈ ordered, ¬(a.span.start < offset ∧ offset < a.span.stop)) :
    spliceBytesFrom bs 0 ordered = spliceBytesFrom (bs.take offset) 0 (ordered.filter (·.endsBy offset)) ++
        spliceBytesFrom bs offset (ordered.filter (!·.endsBy offset)) ∧
      targetFrom offset 0 (ordered.map delta) =
        (spliceBytesFrom (bs.take offset) 0 (ordered.filter (·.endsBy offset))).length := by
  have hsplit : ordered.filter (·.endsBy offset) ++ ordered.filter (!·.endsBy offset) = ordered :=
    filter_append_filter_not (horder.imp fun hab hb => endsBy_of_leads hab hb)
  have hbefore : ∀ a ∈ ordered.filter (·.endsBy offset), a.span.stop ≤ offset :=
    fun a ha => ((endsBy_iff a offset).mp (List.mem_filter.mp ha).2).1
  have hahead : ∀ a ∈ ordered.filter (!·.endsBy offset), a.endsBy offset = false ∧ offset ≤ a.span.start := by
    intro a ha
    obtain ⟨hmem, hends⟩ := List.mem_filter.mp ha
    rw [Bool.not_eq_true'] at hends
    refine ⟨hends, ?_⟩
    have hnot := hout a hmem
    have hstop : a.span.stop = a.span.start + a.span.length := rfl
    rw [← Bool.not_eq_true, endsBy_iff] at hends
    omega
  constructor
  · conv_lhs => rw [← hsplit]
    exact spliceBytesFrom_append (Nat.zero_le _) hbefore (fun a ha => (hahead a ha).2)
  · conv_lhs => rw [← hsplit]
    rw [List.map_append, targetFrom_passed, targetFrom_ahead, length_carried horder List.filter_sublist hoffset hbefore]
    · omega
    · intro d hd
      obtain ⟨a, ha, rfl⟩ := List.mem_map.mp (List.mem_of_mem_head? hd)
      rw [isPassed_delta, (hahead a ha).1]
      exact ⟨Bool.false_ne_true, (hahead a ha).2⟩
    · intro d hd
      obtain ⟨a, ha, rfl⟩ := List.mem_map.mp hd
      exact (List.mem_filter.mp ha).2

theorem carried_inside (hin : ∀ a ∈ ordered, a.span.stop ≤ bs.length) {a : Applied} (ha : a ∈ ordered)
    (hstart : a.span.start < offset) (hstop : offset < a.span.stop) :
    (∃ after, spliceBytesFrom bs 0 ordered =
        spliceBytesFrom (bs.take a.span.start) 0 (ordered.filter (·.span.stop ≤ a.span.start)) ++ a.replacement.bytes ++
          after) ∧
      targetFrom offset 0 (ordered.map delta) =
        (spliceBytesFrom (bs.take a.span.start) 0 (ordered.filter (·.span.stop ≤ a.span.start))).length +
          min (offset - a.span.start) a.replacement.size := by
  obtain ⟨pre, post, rfl⟩ := List.append_of_mem ha
  obtain ⟨hpre, hrest, hcross⟩ := List.pairwise_append.mp horder
  obtain ⟨hpost, -⟩ := List.pairwise_cons.mp hrest
  have hbefore : ∀ b ∈ pre, b.span.stop ≤ a.span.start := fun b hb => (hcross b hb a List.mem_cons_self).1
  have hbehind : ∀ b ∈ post, a.span.stop ≤ b.span.start := fun b hb => (hpost b hb).1
  have hfilter : (pre ++ a :: post).filter (·.span.stop ≤ a.span.start) = pre := by
    rw [List.filter_append, List.filter_eq_self.mpr (by simpa using hbefore), List.filter_eq_nil_iff.mpr,
      List.append_nil]
    intro b hb
    rw [decide_eq_true_eq]
    obtain rfl | hb := List.mem_cons.mp hb
    · omega
    · have hlate := hbehind b hb
      have hle := b.span.start_le_stop
      omega
  have hlength := length_carried horder (List.sublist_append_left pre (a :: post))
    (Nat.le_trans a.span.start_le_stop (hin a ha)) hbefore
  rw [hfilter]
  constructor
  · have hfrom : ∀ b ∈ a :: post, a.span.start ≤ b.span.start := by
      intro b hb
      obtain rfl | hb := List.mem_cons.mp hb
      · exact Nat.le_refl _
      · exact Nat.le_trans a.span.start_le_stop (hbehind b hb)
    refine ⟨spliceBytesFrom bs a.span.stop post, ?_⟩
    rw [spliceBytesFrom_append (Nat.zero_le _) hbefore hfrom, spliceBytesFrom, Nat.sub_self, List.take_zero,
      List.nil_append, Nat.max_eq_right a.span.start_le_stop, List.append_assoc]
  · have hpassed : a.endsBy offset = false := by
      rw [← Bool.not_eq_true, endsBy_iff]
      omega
    rw [List.map_append, List.map_cons, targetFrom_passed, targetFrom, isPassed_delta, hpassed,
      if_neg Bool.false_ne_true, if_pos (show a.delta.span.start < offset from hstart), hlength]
    · simp only [delta]
      omega
    · intro d hd
      obtain ⟨b, hb, rfl⟩ := List.mem_map.mp hd
      rw [isPassed_delta, endsBy_iff]
      have hle := hbefore b hb
      have hb' := b.span.start_le_stop
      omega

theorem filter_insertions {edits : List Applied} (hperm : edits.Perm ordered) :
    edits.filter (·.span == ⟨offset, 0⟩) = ordered.filter (·.span == ⟨offset, 0⟩) := by
  have hsame := hperm.filter (·.span == ⟨offset, 0⟩)
  have hspan : ∀ a ∈ ordered.filter (·.span == ⟨offset, 0⟩), a.span = ⟨offset, 0⟩ := by simp
  have hpair := horder.filter (·.span == ⟨offset, 0⟩)
  generalize ordered.filter (·.span == ⟨offset, 0⟩) = insertions at hsame hspan hpair ⊢
  rcases insertions with _ | ⟨a, _ | ⟨b, rest⟩⟩
  · exact hsame.eq_nil
  · exact hsame.eq_singleton
  · have hlead := (List.pairwise_cons.mp hpair).1 b List.mem_cons_self
    rw [hspan a List.mem_cons_self, hspan b (by simp)] at hlead
    simp only [Span.leads] at hlead
    omega

theorem filter_endsBy_stop {s : Span} (hpos : 0 < s.length) (hclear : ∀ a ∈ ordered, a.span.conflicts s = false) :
    ordered.filter (·.endsBy s.stop) =
      ordered.filter (·.endsBy s.start) ++ ordered.filter (·.span == ⟨s.start, 0⟩) := by
  have hstop : s.stop = s.start + s.length := rfl
  have hsplit := filter_append_filter_not (p := fun a : Applied => a.endsBy s.start)
    ((horder.filter (·.endsBy s.stop)).imp fun hab hb => endsBy_of_leads hab hb)
  rw [← hsplit, List.filter_filter, List.filter_filter]
  congr 1
  · refine List.filter_congr fun a _ => ?_
    rw [Bool.eq_iff_iff, Bool.and_eq_true, endsBy_iff, endsBy_iff]
    simp only [Span.stop]
    omega
  · refine List.filter_congr fun a ha => ?_
    have hfree := hclear a ha
    obtain ⟨rule, ⟨start, length⟩, text⟩ := a
    rw [← Bool.not_eq_true, Span.conflicts_iff] at hfree
    rw [Bool.eq_iff_iff, Bool.and_eq_true, Bool.not_eq_true', ← Bool.not_eq_true, endsBy_iff, endsBy_iff, beq_iff_eq,
      Span.mk.injEq]
    simp only [Span.stop] at hfree ⊢
    omega

end Ordered

namespace Batch

open Applied

def inserted (edits : List Applied) (offset : Nat) : List UInt8 :=
  (edits.filter (·.span == ⟨offset, 0⟩)).flatMap (·.replacement.bytes)

theorem deltas_eq {made ordered : List Applied} (hperm : made.Perm ordered)
    (horder : ordered.Pairwise (fun a b => a.span.leads b.span)) : deltas made = ⟨ordered.map delta⟩ := by
  rw [deltas, OffsetMap.ofDeltas, ← mergeSort_eq_of_leads hperm horder, List.map_mergeSort]
  · rfl
  · exact fun a _ b _ => rfl

section Carried

variable {source : Source} {edits : List Edit} {cancelled : Bool} {r : Revision}
  (hparts : ∀ e ∈ edits, e.parts.Pairwise (fun p q => p.span.conflicts q.span = false))
  (h : apply source edits cancelled = .ok r)

include hparts h

theorem exists_carried : ∃ ordered, r.edits.Perm ordered ∧ ordered.Pairwise (fun a b => a.span.leads b.span) ∧
    (∀ a ∈ ordered, a.span.stop ≤ source.text.bytes.length) ∧
    r.source.text.bytes = spliceBytesFrom source.text.bytes 0 ordered ∧ r.offsets.deltas = ordered.map delta ∧
    ∀ p : Applied → Bool, (r.edits.filter p).mergeSort before = ordered.filter p := by
  obtain ⟨ordered, hperm, horder, hspliced, hoffsets⟩ := apply_from_left hparts (apply_of_cancelled h)
  refine ⟨ordered, hperm, horder, ?_, ?_, ?_, ?_⟩
  · intro a ha
    have hle := hspliced.within a ha
    rwa [Nat.zero_add, ← Text.length_bytes] at hle
  · exact (hspliced.spliceBytesFrom_eq [] rfl).symm
  · rw [hoffsets, deltas_eq hperm horder]
  · intro p
    exact mergeSort_eq_of_leads (hperm.filter p) (horder.filter p)

theorem target_outside {offset : Nat} (hoffset : offset ≤ source.text.size)
    (hout : ∀ a ∈ r.edits, ¬(a.span.start < offset ∧ offset < a.span.stop)) :
    r.offsets.target offset = (spliceBytes (source.text.bytes.take offset) (r.edits.filter (·.endsBy offset))).length ∧
      spliceBytes (source.text.bytes.take offset) (r.edits.filter (·.endsBy offset)) <+: r.source.text.bytes := by
  obtain ⟨ordered, hperm, horder, hin, hnew, hdeltas, hsorted⟩ := exists_carried hparts h
  obtain ⟨hsplit, htarget⟩ := carried_outside horder (Nat.le_trans hoffset (Nat.le_of_eq source.text.length_bytes.symm))
    (fun a ha => hout a (hperm.mem_iff.mpr ha))
  rw [spliceBytes, hsorted, OffsetMap.target, hdeltas, hnew]
  exact ⟨htarget, _, hsplit.symm⟩

theorem target_inside {offset : Nat} {a : Applied} (ha : a ∈ r.edits) (hstart : a.span.start < offset)
    (hstop : offset < a.span.stop) : ∃ front back,
      front = spliceBytes (source.text.bytes.take a.span.start) (r.edits.filter (·.span.stop ≤ a.span.start)) ∧
        r.source.text.bytes = front ++ a.replacement.bytes ++ back ∧
        r.offsets.target offset = front.length + min (offset - a.span.start) a.replacement.size := by
  obtain ⟨ordered, hperm, horder, hin, hnew, hdeltas, hsorted⟩ := exists_carried hparts h
  obtain ⟨⟨back, hsplit⟩, htarget⟩ := carried_inside horder hin (hperm.mem_iff.mp ha) hstart hstop
  refine ⟨_, back, rfl, ?_, ?_⟩
  · rw [spliceBytes, hsorted, hnew, hsplit]
  · rw [spliceBytes, hsorted, OffsetMap.target, hdeltas, htarget]

theorem target_within {offset : Nat} (hoffset : offset ≤ source.text.size) :
    0 ≤ r.offsets.target offset ∧ r.offsets.target offset ≤ r.source.text.size := by
  by_cases hinside : ∃ a ∈ r.edits, a.span.start < offset ∧ offset < a.span.stop
  · obtain ⟨a, ha, hstart, hstop⟩ := hinside
    obtain ⟨front, back, -, hnew, htarget⟩ := target_inside hparts h ha hstart hstop
    have hlength := congrArg List.length hnew
    simp only [List.length_append, Text.length_bytes] at hlength
    omega
  · push Not at hinside
    obtain ⟨htarget, hprefix⟩ := target_outside hparts h hoffset fun a ha hc => by
      have hle := hinside a ha hc.1
      omega
    have hle := hprefix.length_le
    rw [Text.length_bytes] at hle
    omega

theorem map_eq_target (hfit : r.source.text.size ≤ 0xFFFFFFFF) {offset : Nat} (hoffset : offset ≤ source.text.size) :
    (r.offsets.map offset : Int) = r.offsets.target offset := by
  obtain ⟨hleast, hmost⟩ := target_within hparts h hoffset
  rw [OffsetMap.map, OffsetMap.mapFrom_eq, ← OffsetMap.target]
  rw [OffsetMap.clamp_of_le (Int.toNat_of_nonneg hleast).symm (by omega)]
  exact Int.toNat_of_nonneg hleast

/-- Offsets are carried over to the new text. One that is not strictly inside an edited stretch goes to the size of what
comes before it with the edits that end by it made, and so the new text begins; one inside goes into the replacement, as
far as that goes. Offsets keep their order, none goes past the end, and their bound is never reached. -/
theorem apply_carries_offsets (hfit : r.source.text.size ≤ 0xFFFFFFFF) :
    (∀ offset ≤ source.text.size, (∀ a ∈ r.edits, ¬(a.span.start < offset ∧ offset < a.span.stop)) →
      r.offsets.map offset = (spliceBytes (source.text.bytes.take offset) (r.edits.filter (·.endsBy offset))).length ∧
        spliceBytes (source.text.bytes.take offset) (r.edits.filter (·.endsBy offset)) <+: r.source.text.bytes) ∧
    (∀ a ∈ r.edits, ∀ offset, a.span.start < offset → offset < a.span.stop → ∃ front back,
      front = spliceBytes (source.text.bytes.take a.span.start) (r.edits.filter (·.span.stop ≤ a.span.start)) ∧
        r.source.text.bytes = front ++ a.replacement.bytes ++ back ∧
        r.offsets.map offset = front.length + min (offset - a.span.start) a.replacement.size) ∧
    (∀ x y, x ≤ y → r.offsets.map x ≤ r.offsets.map y) ∧
    (∀ offset ≤ source.text.size, r.offsets.map offset ≤ r.source.text.size ∧ 0 ≤ r.offsets.target offset ∧
      r.offsets.target offset ≤ 0xFFFFFFFF ∧ r.offsets.map offset = r.offsets.target offset) := by
  refine ⟨?_, ?_, ?_, ?_⟩
  · intro offset hoffset hout
    obtain ⟨htarget, hprefix⟩ := target_outside hparts h hoffset hout
    have hmap := map_eq_target hparts h hfit hoffset
    exact ⟨by omega, hprefix⟩
  · intro a ha offset hstart hstop
    obtain ⟨front, back, hfront, hnew, htarget⟩ := target_inside hparts h ha hstart hstop
    obtain ⟨ordered, hperm, -, hin, -⟩ := exists_carried hparts h
    have hsize := hin a (hperm.mem_iff.mp ha)
    rw [Text.length_bytes] at hsize
    have hmap := map_eq_target hparts h hfit (Nat.le_of_lt (Nat.lt_of_lt_of_le hstop hsize))
    exact ⟨front, back, hfront, hnew, by omega⟩
  · intro x y hxy
    obtain ⟨ordered, -, horder, -, -, hdeltas, -⟩ := exists_carried hparts h
    rw [OffsetMap.map, OffsetMap.map, hdeltas]
    exact OffsetMap.mapFrom_mono hxy (List.pairwise_map.mpr (horder.imp fun hab => hab.1)) 0
  · intro offset hoffset
    obtain ⟨hleast, hmost⟩ := target_within hparts h hoffset
    have hmap := map_eq_target hparts h hfit hoffset
    omega

theorem exists_mapSpan (hfit : r.source.text.size ≤ 0xFFFFFFFF) {s : Span} (hpos : 0 < s.length)
    (hstop : s.stop ≤ source.text.size) (hclear : ∀ a ∈ r.edits, a.span.conflicts s = false) :
    ∃ front back, r.source.text.bytes = front ++ (inserted r.edits s.start ++ s.bytesOf source.text) ++ back ∧
      r.offsets.map s.start = front.length ∧
      r.offsets.map s.stop = front.length + (inserted r.edits s.start ++ s.bytesOf source.text).length := by
  obtain ⟨ordered, hperm, horder, -, hnew, hdeltas, -⟩ := exists_carried hparts h
  have hlength : s.stop = s.start + s.length := rfl
  have hsize := source.text.length_bytes
  have hfree : ∀ a ∈ ordered, a.span.conflicts s = false := fun a ha => hclear a (hperm.mem_iff.mpr ha)
  have hout : ∀ a ∈ ordered, ¬(a.span.start < s.start ∧ s.start < a.span.stop) ∧
      ¬(a.span.start < s.stop ∧ s.stop < a.span.stop) := by
    intro a ha
    have hconflict := hfree a ha
    rw [← Bool.not_eq_true, Span.conflicts_iff] at hconflict
    omega
  have hstop' : s.stop ≤ source.text.bytes.length := by omega
  obtain ⟨-, htarget⟩ := carried_outside horder (Nat.le_trans s.start_le_stop hstop') (fun a ha => (hout a ha).1)
  obtain ⟨hsplit, htarget'⟩ := carried_outside horder hstop' (fun a ha => (hout a ha).2)
  have hbetween : spliceBytesFrom (source.text.bytes.take s.stop) 0 (ordered.filter (·.endsBy s.stop)) =
      spliceBytesFrom (source.text.bytes.take s.start) 0 (ordered.filter (·.endsBy s.start)) ++
        (inserted r.edits s.start ++ s.bytesOf source.text) := by
    have hbefore : ∀ a ∈ ordered.filter (·.endsBy s.start), a.span.stop ≤ s.start :=
      fun a ha => ((endsBy_iff a s.start).mp (List.mem_filter.mp ha).2).1
    have hthere : ∀ a ∈ ordered.filter (·.span == ⟨s.start, 0⟩), a.span = ⟨s.start, 0⟩ :=
      fun a ha => eq_of_beq (List.mem_filter.mp ha).2
    have hfrom : ∀ a ∈ ordered.filter (·.span == ⟨s.start, 0⟩), s.start ≤ a.span.start :=
      fun a ha => Nat.le_of_eq (congrArg Span.start (hthere a ha)).symm
    rw [filter_endsBy_stop horder hpos hfree, spliceBytesFrom_append (Nat.zero_le s.start) hbefore hfrom,
      spliceBytesFrom_insertions hthere, List.take_take, Nat.min_eq_left s.start_le_stop, List.drop_take, inserted,
      filter_insertions horder hperm, Span.bytesOf, hlength, Nat.add_sub_cancel_left]
  rw [hbetween] at hsplit htarget'
  have hmap := map_eq_target hparts h hfit (Nat.le_trans s.start_le_stop hstop)
  have hmap' := map_eq_target hparts h hfit hstop
  rw [OffsetMap.target, hdeltas] at hmap hmap'
  rw [List.length_append] at htarget'
  exact ⟨_, _, hnew.trans hsplit, by omega, by omega⟩

/-- A stretch that no edit touches is found again where its ends go, behind what was inserted at its start: the text
there is the old one exactly if nothing was. -/
theorem apply_carries_spans (hfit : r.source.text.size ≤ 0xFFFFFFFF) {s : Span} (hpos : 0 < s.length)
    (hstop : s.stop ≤ source.text.size) (hclear : ∀ a ∈ r.edits, a.span.conflicts s = false) :
    (r.offsets.mapSpan s).bytesOf r.source.text = inserted r.edits s.start ++ s.bytesOf source.text ∧
      ((r.offsets.mapSpan s).bytesOf r.source.text = s.bytesOf source.text ↔
        ∀ a ∈ r.edits, a.span = ⟨s.start, 0⟩ → a.replacement = []) := by
  obtain ⟨front, back, hnew, hstart, hend⟩ := exists_mapSpan hparts h hfit hpos hstop hclear
  have hfound : (r.offsets.mapSpan s).bytesOf r.source.text = inserted r.edits s.start ++ s.bytesOf source.text := by
    rw [Span.bytesOf, OffsetMap.mapSpan, hstart, hend, Nat.max_eq_left (Nat.le_add_right _ _), Span.between,
      Nat.add_sub_cancel_left, hnew, List.append_assoc, List.drop_left, List.take_left]
  refine ⟨hfound, ?_⟩
  rw [hfound, List.append_left_eq_self, inserted, List.flatMap_eq_nil_iff]
  simp [Text.bytes_eq_nil]

end Carried

def respelled : List Edit :=
  [{ finding := { rule := "a", span := ⟨6, 0⟩ }
     parts := [⟨⟨6, 0⟩, .insertAfter .returnKw [.token .whitespace [' ']], fun _ => rfl⟩] },
    { finding := { rule := "b", span := ⟨6, 3⟩ }
      parts := [⟨⟨6, 3⟩, .replaceNode .parenExpr (.node .nameExpr [.token .ident ['é']]), nofun⟩] }]

theorem apply_carries_offsets_respelled :
    (∀ e ∈ respelled, e.parts.Pairwise (fun p q => p.span.conflicts q.span = false)) ∧
    ∃ r, apply parenthesizedReturn respelled false = .ok r ∧ r.source.text = "return é;".toList ∧
      r.source.text.size ≤ 0xFFFFFFFF ∧ [6, 7, 8, 9, 10].map r.offsets.map = [6, 8, 9, 9, 10] ∧
      r.offsets.map 6 = (spliceBytes (parenthesizedReturn.text.bytes.take 6) (r.edits.filter (·.endsBy 6))).length ∧
      (∃ a ∈ r.edits, a.span = ⟨6, 3⟩ ∧ ∃ front back, r.source.text.bytes = front ++ a.replacement.bytes ++ back ∧
        r.offsets.map 8 = front.length + min (8 - 6) a.replacement.size) ∧
      ∀ x y, x ≤ y → r.offsets.map x ≤ r.offsets.map y := by
  have hparts : ∀ e ∈ respelled, e.parts.Pairwise (fun p q => p.span.conflicts q.span = false) := by
    simp [respelled]
  refine ⟨hparts, ?_⟩
  have hrun : ∃ r, apply parenthesizedReturn respelled false = .ok r ∧ r.source.text = "return é;".toList ∧
      r.edits = [⟨"b", ⟨6, 3⟩, ['é']⟩, ⟨"a", ⟨6, 0⟩, [' ']⟩] ∧
      [6, 7, 8, 9, 10].map r.offsets.map = [6, 8, 9, 9, 10] := by
    have hpartsOf : partsOf (accepted parenthesizedReturn.tree respelled) = tagged respelled :=
      partsOf_eq (.refl _) (by decide)
    rw [apply_uncancelled]
    dsimp only
    rw [hpartsOf]
    refine ⟨_, rfl, rfl, rfl, ?_⟩
    dsimp only
    rw [deltas_eq (List.reverse_perm _).symm (by simp [Span.leads, Span.stop])]
    decide
  obtain ⟨r, hr, htext, hedits, hmap⟩ := hrun
  have hfit : r.source.text.size ≤ 0xFFFFFFFF := by
    rw [htext]
    decide
  obtain ⟨houtside, hinside, hmono, -⟩ := apply_carries_offsets hparts hr hfit
  have hmem : (⟨"b", ⟨6, 3⟩, ['é']⟩ : Applied) ∈ r.edits := by simp [hedits]
  obtain ⟨front, back, -, hnew, hfront⟩ := hinside _ hmem 8 (by decide) (by decide)
  have hclear : ∀ a ∈ r.edits, ¬(a.span.start < 6 ∧ 6 < a.span.stop) := by
    rw [hedits]
    decide
  exact ⟨r, hr, htext, hfit, hmap, (houtside 6 (by decide) hclear).1, ⟨_, hmem, rfl, front, back, hnew, hfront⟩, hmono⟩

def spacing : List Edit :=
  [{ finding := { rule := "a", span := ⟨6, 0⟩ }
     parts := [⟨⟨6, 0⟩, .insertAfter .returnKw [.token .whitespace [' ']], fun _ => rfl⟩] }]

theorem apply_spacing : ∃ r, apply parenthesizedReturn spacing false = .ok r ∧ r.source.text = "return (x);".toList ∧
    r.edits = [⟨"a", ⟨6, 0⟩, [' ']⟩] ∧ r.offsets.mapSpan ⟨6, 3⟩ = ⟨6, 4⟩ := by
  have hrun : (apply parenthesizedReturn spacing false).toOption.map
      (fun r => (r.source.text, r.edits, r.offsets.mapSpan ⟨6, 3⟩)) =
      some ("return (x);".toList, [⟨"a", ⟨6, 0⟩, [' ']⟩], ⟨6, 4⟩) := by
    decide +kernel
  obtain ⟨r, hr, heq⟩ := exists_ok_of_toOption_map hrun
  simp only [Prod.mk.injEq] at heq
  exact ⟨r, hr, heq⟩

theorem apply_carries_spans_spacing :
    (∀ e ∈ spacing, e.parts.Pairwise (fun p q => p.span.conflicts q.span = false)) ∧
    ∃ r, apply parenthesizedReturn spacing false = .ok r ∧ (∀ a ∈ r.edits, a.span.conflicts ⟨6, 3⟩ = false) ∧
      (r.offsets.mapSpan ⟨6, 3⟩).bytesOf r.source.text =
        inserted r.edits 6 ++ (⟨6, 3⟩ : Span).bytesOf parenthesizedReturn.text ∧
      inserted r.edits 6 = Text.bytes [' '] := by
  have hparts : ∀ e ∈ spacing, e.parts.Pairwise (fun p q => p.span.conflicts q.span = false) := by simp [spacing]
  obtain ⟨r, hr, htext, hedits, -⟩ := apply_spacing
  have hclear : ∀ a ∈ r.edits, a.span.conflicts ⟨6, 3⟩ = false := by
    rw [hedits]
    decide
  have hfit : r.source.text.size ≤ 0xFFFFFFFF := by
    rw [htext]
    decide
  refine ⟨hparts, r, hr, hclear, (apply_carries_spans hparts hr hfit (by decide) (by decide) hclear).1, ?_⟩
  rw [hedits]
  rfl

/-- A stretch that no edit touches may come to have other text where its ends go. -/
theorem exists_span_grown : ∃ r, apply parenthesizedReturn spacing false = .ok r ∧
    (∀ a ∈ r.edits, a.span.conflicts ⟨6, 3⟩ = false) ∧
    (⟨6, 3⟩ : Span).bytesOf parenthesizedReturn.text = Text.bytes "(x)".toList ∧
    (r.offsets.mapSpan ⟨6, 3⟩).bytesOf r.source.text = Text.bytes " (x)".toList := by
  obtain ⟨r, hr, htext, hedits, hspan⟩ := apply_spacing
  refine ⟨r, hr, ?_, by decide +kernel, ?_⟩
  · rw [hedits]
    decide
  · rw [hspan, htext]
    decide +kernel

end Batch

end Lintel
