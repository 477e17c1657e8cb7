import Mathlib.Data.List.Pairwise
import Mathlib.Data.List.Perm.Basic
import Lintel.Proofs.BatchAccounting

namespace Lintel

def LeftReason.anonymous : LeftReason → LeftReason
  | conflict _ => conflict ""
  | reason => reason

def Leftover.anonymous (l : Leftover) : Leftover :=
  ⟨l.finding, l.reason.anonymous⟩

theorem Leftover.vanished_anonymous (l : Leftover) : (l.anonymous.reason == .vanished) = (l.reason == .vanished) := by
  obtain ⟨f, reason⟩ := l
  cases reason <;> rfl

theorem Span.conflicts_self (s : Span) : s.conflicts s = true := by
  have hstop : s.stop = s.start + s.length := rfl
  rw [Span.conflicts_iff]
  omega

theorem Edit.conflicts_self {e : Edit} (h : e.parts ≠ []) : e.conflicts e = true := by
  obtain ⟨p, hp⟩ := List.exists_mem_of_ne_nil e.parts h
  exact conflicts_iff.mpr ⟨p, hp, p, hp, p.span.conflicts_self⟩

namespace Batch

section Ties

variable {α : Type} {le : α → α → Bool}

def tied (le : α → α → Bool) (a x : α) : Bool :=
  le a x && le x a

variable (trans : ∀ a b c, le a b = true → le b c = true → le a c = true) (total : ∀ a b, (le a b || le b a) = true)

include total

theorem eq_of_filter_tied {s t : List α} (hs : s.Pairwise (fun x y => le x y = true))
    (ht : t.Pairwise (fun x y => le x y = true)) (h : ∀ a, s.filter (tied le a) = t.filter (tied le a)) : s = t := by
  have hrefl (a : α) : le a a = true := by simpa using total a a
  have hself (a : α) : tied le a a = true := by simp [tied, hrefl]
  induction s generalizing t with
  | nil =>
    cases t with
    | nil => rfl
    | cons y t =>
      have hy := h y
      rw [List.filter_cons_of_pos (hself y)] at hy
      cases hy
  | cons x s ih =>
    have hmem : ∀ {y : α}, y ∈ t ↔ y ∈ x :: s := by
      intro y
      have hy : y ∈ t.filter (tied le y) ↔ y ∈ (x :: s).filter (tied le y) := by rw [h y]
      simpa [hself] using hy
    cases t with
    | nil => exact absurd (hmem.mpr List.mem_cons_self) List.not_mem_nil
    | cons y t =>
      have hxy : le x y = true := by
        obtain rfl | hy := List.mem_cons.mp (hmem.mp List.mem_cons_self)
        · exact hrefl y
        · exact (List.pairwise_cons.mp hs).1 y hy
      have hyx : le y x = true := by
        obtain rfl | hx := List.mem_cons.mp (hmem.mpr List.mem_cons_self)
        · exact hrefl x
        · exact (List.pairwise_cons.mp ht).1 x hx
      have hhead := h x
      rw [List.filter_cons_of_pos (hself x), List.filter_cons_of_pos (by simp [tied, hxy, hyx])] at hhead
      obtain rfl := (List.cons.inj hhead).1
      congr 1
      apply ih (List.pairwise_cons.mp hs).2 (List.pairwise_cons.mp ht).2
      intro a
      have ha := h a
      by_cases hax : tied le a x = true
      · rw [List.filter_cons_of_pos hax, List.filter_cons_of_pos hax] at ha
        exact (List.cons.inj ha).2
      · rwa [List.filter_cons_of_neg hax, List.filter_cons_of_neg hax] at ha

include trans

theorem filter_tied_mergeSort (l : List α) (a : α) : (l.mergeSort le).filter (tied le a) = l.filter (tied le a) := by
  have hpair : (l.filter (tied le a)).Pairwise (fun x y => le x y = true) := by
    apply List.pairwise_of_forall_mem_list
    intro x hx y hy
    have hx' := (Bool.and_eq_true_iff.mp (List.mem_filter.mp hx).2).2
    have hy' := (Bool.and_eq_true_iff.mp (List.mem_filter.mp hy).2).1
    exact trans x a y hx' hy'
  have hsub := (List.sublist_mergeSort trans total hpair List.filter_sublist).filter (tied le a)
  simp only [List.filter_filter, Bool.and_self] at hsub
  exact (hsub.eq_of_length ((List.mergeSort_perm l le).filter _).length_eq.symm).symm

theorem mergeSort_eq_of_filter_tied {l l' : List α} (h : ∀ a, l.filter (tied le a) = l'.filter (tied le a)) :
    l.mergeSort le = l'.mergeSort le := by
  apply eq_of_filter_tied total (List.pairwise_mergeSort trans total l) (List.pairwise_mergeSort trans total l')
  intro a
  rw [filter_tied_mergeSort trans total, filter_tied_mergeSort trans total, h a]

end Ties

theorem span_eq_of_tied {a x y : String × Part} (hx : tied rightmost a x = true) (hy : tied rightmost a y = true) :
    x.2.span = y.2.span := by
  rw [tied, Bool.and_eq_true, rightmost_iff, rightmost_iff] at hx hy
  have hstart : x.2.span.start = y.2.span.start := by omega
  have hlength : x.2.span.length = y.2.span.length := by omega
  calc x.2.span = ⟨x.2.span.start, x.2.span.length⟩ := rfl
    _ = ⟨y.2.span.start, y.2.span.length⟩ := by rw [hstart, hlength]

theorem filter_tied_of_clear {e f : Edit} (h : e.conflicts f = false) (a : String × Part) :
    (e.parts.map (fun p => (e.rule, p))).filter (tied rightmost a) = [] ∨
      (f.parts.map (fun p => (f.rule, p))).filter (tied rightmost a) = [] := by
  rw [or_iff_not_imp_left]
  intro hne
  obtain ⟨x, hx⟩ := List.exists_mem_of_ne_nil _ hne
  obtain ⟨hx, hax⟩ := List.mem_filter.mp hx
  obtain ⟨p, hp, rfl⟩ := List.mem_map.mp hx
  rw [List.filter_eq_nil_iff]
  intro y hy hay
  obtain ⟨q, hq, rfl⟩ := List.mem_map.mp hy
  have hspan : p.span = q.span := span_eq_of_tied hax hay
  have hconflict : e.conflicts f = true := Edit.conflicts_iff.mpr ⟨p, hp, q, hq, hspan ▸ p.span.conflicts_self⟩
  rw [h] at hconflict
  cases hconflict

theorem filter_tied_tagged {es es' : List Edit} (h : es.Perm es')
    (hclear : es.Pairwise (fun e f => e.conflicts f = false)) (a : String × Part) :
    (tagged es).filter (tied rightmost a) = (tagged es').filter (tied rightmost a) := by
  induction h with
  | nil => rfl
  | @cons e es es' h ih =>
    simp only [tagged, List.flatMap_cons, List.filter_append] at ih ⊢
    rw [ih (List.pairwise_cons.mp hclear).2]
  | swap f e es =>
    have hef : e.conflicts f = false := (List.pairwise_cons.mp hclear).1 f List.mem_cons_self
    simp only [tagged, List.flatMap_cons, List.filter_append]
    obtain hnil | hnil := filter_tied_of_clear hef a
    · rw [hnil, List.nil_append, List.nil_append]
    · rw [hnil, List.nil_append, List.nil_append]
  | @trans es es' es'' h h' ih ih' =>
    have hsymm : ∀ {e f : Edit}, e.conflicts f = false → f.conflicts e = false := by
      intro e f hef
      rwa [Edit.conflicts_comm]
    exact (ih hclear).trans (ih' (h.pairwise hclear hsymm))

theorem partsOf_perm {es es' : List Edit} (h : es.Perm es')
    (hclear : es.Pairwise (fun e f => e.conflicts f = false)) : partsOf es = partsOf es' := by
  apply mergeSort_eq_of_filter_tied
  · intro x y z hxy hyz
    rw [rightmost_iff] at *
    omega
  · intro x y
    rw [Bool.or_eq_true, rightmost_iff, rightmost_iff]
    omega
  · exact filter_tied_tagged h hclear

def judge (root : Tree) (edits : List Edit) (e : Edit) : Option LeftReason :=
  if 1 < edits.countP (fun f => e.conflicts f) then some (.conflict "")
  else if e.parts.isEmpty then some (.notApplicable "edit has no parts")
  else if e.parts.all (fun p => (p.resolve root 0).toOption.isSome) then none
  else some .vanished

theorem exists_rivals_iff {edits : List Edit} {i : Nat} {e : Edit} (he : edits[i]? = some e) :
    (∃ j, Rivals edits i j) ↔ 1 < edits.countP (fun f => e.conflicts f) := by
  obtain ⟨hi, hget⟩ := List.getElem?_eq_some_iff.mp he
  have hcount : edits.countP (fun f => e.conflicts f) =
      (edits.eraseIdx i).countP (fun f => e.conflicts f) + if e.conflicts e then 1 else 0 := by
    rw [← (List.getElem_cons_eraseIdx_perm hi).countP_eq, hget, List.countP_cons]
  have hothers : (∃ j, Rivals edits i j) ↔ 0 < (edits.eraseIdx i).countP (fun f => e.conflicts f) := by
    rw [List.countP_pos_iff]
    constructor
    · rintro ⟨j, hj⟩
      obtain ⟨hji, f, hf, hc⟩ := (rivals_iff he).mp hj
      exact ⟨f, List.mem_eraseIdx_iff_getElem?.mpr ⟨j, hji, hf⟩, hc⟩
    · rintro ⟨f, hf, hc⟩
      obtain ⟨j, hji, hf⟩ := List.mem_eraseIdx_iff_getElem?.mp hf
      exact ⟨j, (rivals_iff he).mpr ⟨hji, f, hf, hc⟩⟩
  rw [hothers, hcount]
  by_cases hparts : e.parts = []
  · have hnone : ∀ f, e.conflicts f = false := by simp [Edit.conflicts, hparts]
    simp [hnone]
  · rw [if_pos (Edit.conflicts_self hparts)]
    omega

theorem anonymous_objection? {root : Tree} {edits : List Edit} {i : Nat} {e : Edit} (he : edits[i]? = some e) :
    (objection? root edits i e).map LeftReason.anonymous = judge root edits e := by
  rw [objection?, judge]
  cases hr : rival? edits i e with
  | some f =>
    obtain ⟨j, -, hj, -⟩ := (rival?_eq_some_iff he).mp hr
    rw [if_pos ((exists_rivals_iff he).mp ⟨j, hj⟩)]
    rfl
  | none =>
    have hfree := (rival?_eq_none_iff he).mp hr
    rw [if_neg (fun h => not_exists.mpr hfree ((exists_rivals_iff he).mpr h))]
    dsimp only
    split
    · rfl
    · split
      · rfl
      · rfl

theorem judge_perm {edits edits' : List Edit} (h : edits.Perm edits') (root : Tree) :
    judge root edits = judge root edits' := by
  funext e
  rw [judge, judge, h.countP_eq]

theorem filterMap_judged {β : Type} (root : Tree) (edits : List Edit) (f : Edit → Option LeftReason → Option β) :
    (edits.zip (verdicts root edits)).filterMap (fun x => f x.1 (x.2.map LeftReason.anonymous)) =
      edits.filterMap (fun e => f e (judge root edits e)) := by
  have hpoint : edits.zipIdx.filterMap (fun x => f x.1 ((objection? root edits x.2 x.1).map LeftReason.anonymous)) =
      edits.zipIdx.filterMap (fun x => f x.1 (judge root edits x.1)) := by
    apply List.filterMap_congr
    intro x hx
    rw [anonymous_objection? (List.mk_mem_zipIdx_iff_getElem?.mp hx)]
  have hfst := congrArg (List.filterMap (fun e => f e (judge root edits e))) (List.zipIdx_map_fst 0 edits)
  rw [List.filterMap_map] at hfst
  rw [zip_verdicts, List.filterMap_map]
  exact hpoint.trans hfst

theorem accepted_eq_filterMap (root : Tree) (edits : List Edit) : accepted root edits =
    edits.filterMap (fun e => if (judge root edits e).isNone then some e else none) := by
  rw [← filterMap_judged root edits (fun e v => if v.isNone then some e else none), ← kept_verdicts, kept]
  simp

theorem anonymous_dropped (root : Tree) (edits : List Edit) :
    (dropped edits (verdicts root edits)).map Leftover.anonymous =
      edits.filterMap (fun e => (judge root edits e).map (fun r => ⟨e.finding, r⟩)) := by
  rw [← filterMap_judged root edits (fun e v => v.map (fun r => (⟨e.finding, r⟩ : Leftover))), dropped,
    List.map_filterMap]
  simp [Function.comp_def, Leftover.anonymous]

theorem accepted_perm {edits edits' : List Edit} (h : edits.Perm edits') (root : Tree) :
    (accepted root edits).Perm (accepted root edits') := by
  rw [accepted_eq_filterMap, accepted_eq_filterMap, judge_perm h]
  exact h.filterMap _

theorem dropped_perm {edits edits' : List Edit} (h : edits.Perm edits') (root : Tree) :
    ((dropped edits (verdicts root edits)).map Leftover.anonymous).Perm
      ((dropped edits' (verdicts root edits')).map Leftover.anonymous) := by
  rw [anonymous_dropped, anonymous_dropped, judge_perm h]
  exact h.filterMap _

end Batch

/-- Two revisions that differ in the order of what they list, and in which rule they say is in the way of another. -/
structure Revision.Alike (r r' : Revision) : Prop where
  source : r.source = r'.source
  edits : r.edits = r'.edits
  offsets : r.offsets = r'.offsets
  needsRetry : r.needsRetry = r'.needsRetry
  applied : r.applied.Perm r'.applied
  leftovers : (r.leftovers.map Leftover.anonymous).Perm (r'.leftovers.map Leftover.anonymous)

inductive SameOutcome : Except Abort Revision → Except Abort Revision → Prop
  | aborted (a : Abort) : SameOutcome (.error a) (.error a)
  | revised {r r' : Revision} (h : r.Alike r') : SameOutcome (.ok r) (.ok r')

/-- The order of the edits of a batch does not matter. -/
theorem Batch.apply_perm {edits edits' : List Edit} (h : edits.Perm edits') (source : Source) :
    SameOutcome (apply source edits false) (apply source edits' false) := by
  have haccepted := accepted_perm h source.tree
  have hparts := partsOf_perm haccepted (pairwise_accepted source.tree edits)
  have hleft := dropped_perm h source.tree
  have hretry : (dropped edits (verdicts source.tree edits)).any (fun l => l.reason == .vanished) =
      (dropped edits' (verdicts source.tree edits')).any (fun l => l.reason == .vanished) := by
    have hany := hleft.any_eq (f := fun l => l.reason == .vanished)
    simpa only [List.any_map, Function.comp_def, Leftover.vanished_anonymous] using hany
  have hempty : (accepted source.tree edits).isEmpty = (accepted source.tree edits').isEmpty := by
    rw [Bool.eq_iff_iff, List.isEmpty_iff, List.isEmpty_iff]
    exact ⟨fun hnil => (hnil ▸ haccepted).nil_eq.symm, fun hnil => (hnil ▸ haccepted).eq_nil⟩
  rw [apply_uncancelled, apply_uncancelled]
  dsimp only
  rw [← hparts, ← hempty]
  split
  · exact .revised ⟨rfl, rfl, rfl, hretry, .nil, hleft⟩
  · split
    · exact .aborted _
    · split
      · exact .aborted _
      · exact .revised ⟨rfl, rfl, rfl, hretry, haccepted.map _, hleft⟩

theorem Batch.apply_perm_crowded : ∃ r r', apply parenthesizedReturn crowded false = .ok r ∧
    apply parenthesizedReturn crowded.reverse false = .ok r' ∧ r.Alike r' ∧
    LeftReason.conflict "a" ∈ r.leftovers.map (·.reason) ∧ LeftReason.conflict "a" ∉ r'.leftovers.map (·.reason) := by
  have hback : ∃ r, apply parenthesizedReturn crowded.reverse false = .ok r ∧ r.leftovers.map (·.reason) =
      [.vanished, .notApplicable "edit has no parts", .conflict "b", .conflict "c", .conflict "b"] := by
    have hparts : partsOf (accepted parenthesizedReturn.tree crowded.reverse) = (tagged (crowded.drop 5)).reverse :=
      partsOf_eq (List.reverse_perm _).symm (by decide)
    rw [apply_uncancelled]
    dsimp only
    rw [hparts]
    exact ⟨_, rfl, rfl⟩
  have hsame := apply_perm (List.reverse_perm crowded).symm parenthesizedReturn
  obtain ⟨r, hr, -, -, hleft⟩ := apply_crowded
  obtain ⟨r', hr', hleft'⟩ := hback
  rw [hr, hr'] at hsame
  cases hsame with
  | revised halike =>
    refine ⟨r, r', hr, hr', halike, ?_, ?_⟩
    · rw [hleft]
      decide
    · rw [hleft']
      decide

end Lintel
