import Lintel.Fix.Consistency
import Lintel.Proofs.TextCuts

namespace Lintel

namespace Span

theorem start_le_stop (s : Span) : s.start ≤ s.stop :=
  Nat.le_add_right s.start s.length

theorem conflicts_iff (a b : Span) : a.conflicts b = true ↔
    (a.start < b.stop ∧ b.start < a.stop) ∨ (a.length = 0 ∧ b.length = 0 ∧ a.start = b.start) := by
  by_cases ha : a.length = 0 <;> by_cases hb : b.length = 0 <;> simp [conflicts, isEmpty, ha, hb] <;>
    simp only [stop] <;> omega

def leads (a b : Span) : Prop :=
  a.stop ≤ b.start ∧ (a.start < b.start ∨ 0 < b.length)

/-- How a part still to be made lies to one that was made: before it, or at the same offset as an
insertion. -/
def yields (later earlier : Span) : Prop :=
  earlier.leads later ∨ (later.leads earlier ∧ later.length = 0 ∧ later.start = earlier.start)

theorem yields_of_conflicts {later earlier : Span} (hc : later.conflicts earlier = false)
    (hr : earlier.start < later.start ∨ (later.start = earlier.start ∧ later.stop ≤ earlier.stop)) :
    later.yields earlier := by
  rw [← Bool.not_eq_true, conflicts_iff] at hc
  simp only [yields, leads, stop] at hc hr ⊢
  omega

end Span

inductive Spliced : Nat → Text → List Applied → Text → Prop
  | rest (offset : Nat) (t : Text) : Spliced offset t [] t
  | edit {offset : Nat} {kept gone rest out : Text} {a : Applied} {edits : List Applied}
      (hstart : a.span.start = offset + kept.size) (hlength : a.span.length = gone.size)
      (h : Spliced a.span.stop rest edits out) :
      Spliced offset (kept ++ gone ++ rest) (a :: edits) (kept ++ a.replacement ++ out)

namespace Spliced

theorem spliceFrom_eq {offset : Nat} {t out : Text} {edits : List Applied} (h : Spliced offset t edits out)
    (before whole : Text) (hw : whole = before ++ t) (hb : before.size = offset) :
    Applied.spliceFrom whole offset edits = out := by
  induction h generalizing before whole with
  | rest offset t =>
    rw [Applied.spliceFrom, hw, ← hb, Text.dropBytes_append]
  | @edit offset kept gone rest out a edits hstart hlength h ih =>
    have hstop : max offset a.span.stop = a.span.stop := by
      simp only [Span.stop]
      omega
    have hkept : a.span.start - offset = kept.size := by omega
    rw [Applied.spliceFrom, hstop, hkept, hw, ← hb, Text.dropBytes_append, List.append_assoc kept,
      Text.takeBytes_append]
    congr 1
    apply ih (before ++ kept ++ gone) _ (by simp)
    simp only [Text.size_append, Span.stop]
    omega

theorem cons {offset : Nat} {t : Text} {edits : List Applied} (before gone after : Text) (a : Applied)
    (h : Spliced offset t edits (before ++ gone ++ after)) (hstart : a.span.start = offset + before.size)
    (hlength : a.span.length = gone.size) (hfirst : ∀ b ∈ edits, a.span.leads b.span) :
    Spliced offset t (a :: edits) (before ++ a.replacement ++ after) := by
  generalize ho : before ++ gone ++ after = out at h
  cases h with
  | rest => exact ho ▸ .edit hstart hlength (.rest _ _)
  | @edit _ kept cut rest out b edits hb hc h =>
    have hle : a.span.stop ≤ b.span.start := (hfirst b List.mem_cons_self).1
    simp only [Span.stop] at hle
    rw [List.append_assoc kept] at ho
    obtain ⟨keep, rfl, hafter⟩ := Text.exists_of_append_eq ho (by rw [Text.size_append]; omega)
    rw [Text.size_append, Text.size_append] at hb
    rw [hafter, ← List.append_assoc keep, List.append_assoc (before ++ gone), List.append_assoc (before ++ gone)]
    apply Spliced.edit hstart hlength
    apply Spliced.edit _ hc h
    simp only [Span.stop]
    omega

end Spliced

end Lintel
