import Lintel.Edit.Batch

namespace Lintel

theorem Edit.conflicts_iff {e f : Edit} :
    e.conflicts f = true ↔ ∃ p ∈ e.parts, ∃ q ∈ f.parts, p.span.conflicts q.span = true := by
  simp only [conflicts, List.any_eq_true]

theorem Edit.conflicts_comm (e f : Edit) : e.conflicts f = f.conflicts e := by
  have hswap : ∀ {e f : Edit}, e.conflicts f = true → f.conflicts e = true := by
    intro e f h
    obtain ⟨p, hp, q, hq, hpq⟩ := conflicts_iff.mp h
    rw [Span.conflicts_comm] at hpq
    exact conflicts_iff.mpr ⟨q, hq, p, hp, hpq⟩
  rw [Bool.eq_iff_iff]
  exact ⟨hswap, hswap⟩

namespace Batch

def rival? (edits : List Edit) (i : Nat) (e : Edit) : Option Edit :=
  ((edits.zipIdx.filter (fun x => x.2 != i)).find? (fun x => e.conflicts x.1)).map (·.1)

def objection? (root : Tree) (edits : List Edit) (i : Nat) (e : Edit) : Option LeftReason :=
  match rival? edits i e with
  | some rival => some (.conflict rival.rule)
  | none =>
    if e.parts.isEmpty then some (.notApplicable "edit has no parts")
    else if e.parts.all (fun p => (p.resolve root 0).toOption.isSome) then none
    else some .vanished

section Slots

variable {e : Edit} {i : Nat} {xs : List (Edit × Nat)} {slots : List (Option String)}

theorem getElem?_noteRival (slots : List (Option String)) (i k : Nat) (rule : String) :
    (noteRival slots i rule)[k]? = slots[k]?.map (fun s => if i = k then s.or (some rule) else s) := by
  rw [noteRival, List.getElem?_modify]
  split <;> simp

theorem getElem?_compareWith_of_ne {x y : Edit × Nat} (hx : x.2 ≠ i) (hy : y.2 ≠ i) :
    (compareWith x slots y)[i]? = slots[i]? := by
  rw [compareWith]
  split
  · simp [getElem?_noteRival, hx, hy]
  · rfl

theorem getElem?_foldl_compareWith_of_ne {x : Edit × Nat} (hx : x.2 ≠ i) (hxs : ∀ y ∈ xs, y.2 ≠ i) :
    (xs.foldl (compareWith x) slots)[i]? = slots[i]? := by
  induction xs generalizing slots with
  | nil => rfl
  | cons y xs ih =>
    rw [List.foldl_cons, ih (fun z hz => hxs z (List.mem_cons_of_mem _ hz))]
    exact getElem?_compareWith_of_ne hx (hxs y List.mem_cons_self)

theorem getElem?_foldl_compareWith_self {x : Edit × Nat} (hxs : ∀ y ∈ xs, y.2 ≠ x.2) :
    (xs.foldl (compareWith x) slots)[x.2]? =
      slots[x.2]?.map (·.or ((xs.find? (fun y => x.1.conflicts y.1)).map (·.1.rule))) := by
  induction xs generalizing slots with
  | nil => simp
  | cons y xs ih =>
    have hy : y.2 ≠ x.2 := hxs y List.mem_cons_self
    rw [List.foldl_cons, ih (fun z hz => hxs z (List.mem_cons_of_mem _ hz)), compareWith]
    cases hc : x.1.conflicts y.1 with
    | false => simp [hc]
    | true => simp [hc, getElem?_noteRival, hy, Function.comp_def]

theorem getElem?_foldl_compareWith_of_mem {x : Edit × Nat} (hx : x.2 ≠ i) (hxs : xs.Pairwise (·.2 ≠ ·.2))
    (he : (e, i) ∈ xs) : (xs.foldl (compareWith x) slots)[i]? =
      slots[i]?.map (fun s => if e.conflicts x.1 then s.or (some x.1.rule) else s) := by
  induction xs generalizing slots with
  | nil => cases he
  | cons y xs ih =>
    obtain ⟨hfirst, hrest⟩ := List.pairwise_cons.mp hxs
    rw [List.foldl_cons]
    obtain rfl | he := List.mem_cons.mp he
    · have hothers : ∀ y ∈ xs, y.2 ≠ i := fun y hy => (hfirst y hy).symm
      rw [getElem?_foldl_compareWith_of_ne hx hothers, compareWith, Edit.conflicts_comm]
      split
      · simp [getElem?_noteRival, hx]
      · simp
    · rw [ih hrest he, getElem?_compareWith_of_ne hx (hfirst _ he)]

theorem getElem?_compareAll_of_ne (hxs : ∀ y ∈ xs, y.2 ≠ i) : (compareAll xs slots)[i]? = slots[i]? := by
  induction xs generalizing slots with
  | nil => rfl
  | cons x xs ih =>
    have hrest : ∀ y ∈ xs, y.2 ≠ i := fun y hy => hxs y (List.mem_cons_of_mem _ hy)
    rw [compareAll, ih hrest, getElem?_foldl_compareWith_of_ne (hxs x List.mem_cons_self) hrest]

/-- An edit hears of the others in their order: those before it come up first, then it is its turn. -/
theorem getElem?_compareAll (hxs : xs.Pairwise (·.2 ≠ ·.2)) (he : (e, i) ∈ xs) : (compareAll xs slots)[i]? =
    slots[i]?.map (·.or (((xs.filter (·.2 != i)).find? (fun y => e.conflicts y.1)).map (·.1.rule))) := by
  induction xs generalizing slots with
  | nil => cases he
  | cons x xs ih =>
    obtain ⟨hfirst, hrest⟩ := List.pairwise_cons.mp hxs
    rw [compareAll]
    obtain rfl | he := List.mem_cons.mp he
    · have hothers : ∀ y ∈ xs, y.2 ≠ i := fun y hy => (hfirst y hy).symm
      have hfilter : ((e, i) :: xs).filter (·.2 != i) = xs := by
        rw [List.filter_cons_of_neg (by simp), List.filter_eq_self]
        simpa using hothers
      rw [getElem?_compareAll_of_ne hothers, hfilter]
      exact getElem?_foldl_compareWith_self hothers
    · have hx : x.2 ≠ i := hfirst _ he
      rw [ih hrest he, getElem?_foldl_compareWith_of_mem hx hrest he, List.filter_cons_of_pos (by simpa using hx),
        List.find?_cons]
      cases e.conflicts x.1 <;> simp [Function.comp_def]

theorem length_compareAll (xs : List (Edit × Nat)) (slots : List (Option String)) :
    (compareAll xs slots).length = slots.length := by
  have hinner (x : Edit × Nat) (ys : List (Edit × Nat)) (slots : List (Option String)) :
      (ys.foldl (compareWith x) slots).length = slots.length := by
    induction ys generalizing slots with
    | nil => rfl
    | cons y ys ih =>
      rw [List.foldl_cons, ih, compareWith]
      split <;> simp [noteRival]
  induction xs generalizing slots with
  | nil => rfl
  | cons x xs ih => rw [compareAll, ih, hinner]

theorem conflictSlots_eq (edits : List Edit) :
    conflictSlots edits = edits.zipIdx.map (fun x => (rival? edits x.2 x.1).map (·.rule)) := by
  apply List.ext_getElem?
  intro i
  rw [List.getElem?_map, List.getElem?_zipIdx]
  cases he : edits[i]? with
  | none =>
    apply List.getElem?_eq_none
    rw [conflictSlots, length_compareAll, List.length_replicate]
    exact List.getElem?_eq_none_iff.mp he
  | some e =>
    have hi : i < edits.length := (List.getElem?_eq_some_iff.mp he).1
    have hapart : edits.zipIdx.Pairwise (·.2 ≠ ·.2) := by
      apply List.pairwise_map.mp
      rw [List.zipIdx_map_snd]
      exact List.nodup_range'
    rw [conflictSlots, getElem?_compareAll hapart (List.mk_mem_zipIdx_iff_getElem?.mpr he)]
    simp [rival?, hi, Function.comp_def]

end Slots

def verdicts (root : Tree) (edits : List Edit) : List (Option LeftReason) :=
  edits.zipIdx.map (fun x => objection? root edits x.2 x.1)

def kept (edits : List Edit) (verdicts : List (Option LeftReason)) : List Edit :=
  (edits.zip verdicts).filterMap (fun x => if x.2.isNone then some x.1 else none)

def dropped (edits : List Edit) (verdicts : List (Option LeftReason)) : List Leftover :=
  (edits.zip verdicts).filterMap (fun x => x.2.map (fun r => ⟨x.1.finding, r⟩))

def accepted (root : Tree) (edits : List Edit) : List Edit :=
  (edits.zipIdx.map (fun x => (x.1, objection? root edits x.2 x.1))).filterMap
    (fun x => if x.2.isNone then some x.1 else none)

theorem zip_map_zipIdx {β : Type} (edits : List Edit) (f : Edit × Nat → β) :
    edits.zip (edits.zipIdx.map f) = edits.zipIdx.map (fun x => (x.1, f x)) := by
  have hfst : edits.zip (edits.zipIdx.map f) = (edits.zipIdx.map Prod.fst).zip (edits.zipIdx.map f) := by
    rw [List.zipIdx_map_fst]
  rw [hfst, List.zip_map']

theorem zip_verdicts (root : Tree) (edits : List Edit) : edits.zip (verdicts root edits) =
    edits.zipIdx.map (fun x => (x.1, objection? root edits x.2 x.1)) :=
  zip_map_zipIdx edits _

theorem kept_verdicts (root : Tree) (edits : List Edit) : kept edits (verdicts root edits) = accepted root edits := by
  rw [kept, zip_verdicts, accepted]

def Triage.settle (t : Triage) (x : Edit × Option LeftReason) : Triage :=
  match x.2 with
  | none => { t with accepted := t.accepted ++ [x.1] }
  | some r => { t with result := { t.result.leave x.1.finding r with
      needsRetry := t.result.needsRetry || r == .vanished } }

theorem Triage.judge_eq (root : Tree) (edits : List Edit) (t : Triage) (x : Edit × Nat) :
    t.judge root (x.1, (rival? edits x.2 x.1).map (·.rule)) = t.settle (x.1, objection? root edits x.2 x.1) := by
  have hstay {r : LeftReason} (hr : r ≠ .vanished) : t.leave x.1 r = t.settle (x.1, some r) := by
    simp [settle, leave, Revision.leave, beq_eq_false_iff_ne.mpr hr]
  rw [judge, objection?]
  cases rival? edits x.2 x.1 with
  | some f => exact hstay (by simp)
  | none =>
    dsimp only [Option.map_none]
    split
    · exact hstay (by simp)
    · split
      · rfl
      · simp [settle, leave, Revision.leave]

theorem Triage.foldl_settle (xs : List (Edit × Option LeftReason)) (t : Triage) :
    let left := xs.filterMap (fun x => x.2.map (fun r => (⟨x.1.finding, r⟩ : Leftover)))
    xs.foldl settle t =
      { accepted := t.accepted ++ xs.filterMap (fun x => if x.2.isNone then some x.1 else none)
        result := { t.result with
          leftovers := t.result.leftovers ++ left
          needsRetry := t.result.needsRetry || left.any (fun l => l.reason == .vanished) } } := by
  induction xs generalizing t with
  | nil => simp
  | cons x xs ih =>
    obtain ⟨e, v⟩ := x
    rw [List.foldl_cons, ih]
    cases v with
    | none => simp [settle]
    | some r => simp [settle, Revision.leave, Bool.or_assoc]

theorem triage_eq (source : Source) (edits : List Edit) :
    let left := dropped edits (verdicts source.tree edits)
    triage source edits =
      { accepted := accepted source.tree edits
        result := { source, leftovers := left, needsRetry := left.any (fun l => l.reason == .vanished) } } := by
  have hturns : (edits.zip (conflictSlots edits)).foldl (Triage.judge source.tree) { result := { source } } =
      (edits.zip (verdicts source.tree edits)).foldl Triage.settle { result := { source } } := by
    rw [conflictSlots_eq, zip_map_zipIdx, zip_verdicts, List.foldl_map, List.foldl_map]
    simp only [Triage.judge_eq]
  rw [triage, hturns, Triage.foldl_settle, ← kept_verdicts]
  simp [kept, dropped]

theorem apply_uncancelled (source : Source) (edits : List Edit) : apply source edits false =
    let left := dropped edits (verdicts source.tree edits)
    let made := accepted source.tree edits
    let result : Revision := { source, leftovers := left, needsRetry := left.any (fun l => l.reason == .vanished) }
    if made.isEmpty then .ok result
    else match overlap? (partsOf made) with
      | some (later, earlier) => .error (.crash (some
          s!"overlapping edit parts reached the folding pass: {earlier.render} and {later.render}"))
      | none =>
        match (partsOf made).foldlM step { tree := source.tree } with
        | .error f => .error (.failure f)
        | .ok g => .ok { result with
            source := { source with tree := g.tree }
            applied := made.map (·.finding)
            edits := g.made
            offsets := deltas g.made } := by
  rw [apply, triage_eq]
  simp only [pure, Except.pure, bind, Except.bind, Bool.false_eq_true, if_false]
  split
  · rename_i hnil
    rw [List.isEmpty_iff.mp hnil]
    rfl
  · cases overlap? (partsOf (accepted source.tree edits)) with
    | some spans => rfl
    | none => rfl

theorem apply_of_cancelled {source : Source} {edits : List Edit} {cancelled : Bool} {r : Revision}
    (h : apply source edits cancelled = .ok r) : apply source edits false = .ok r := by
  cases cancelled with
  | false => exact h
  | true =>
    rw [apply] at h
    split at h
    · rename_i hnil
      rw [List.isEmpty_iff.mp hnil]
      exact h
    · cases h

end Batch

end Lintel
