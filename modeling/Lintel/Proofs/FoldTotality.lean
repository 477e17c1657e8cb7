import Lintel.Proofs.CellEdits
import Lintel.Proofs.LosslessRewrite
import Lintel.Proofs.RunSearch

/-!
Batches that always go through. Making a part replaces a run of elements, so what a part further left is about
still stands when its turn comes, unless an insertion has come to stand at its end.
-/

namespace Lintel

open Tree

def Change.isReplacement : Change → Bool
  | replaceNode _ _ | replaceTokens _ => true
  | _ => false

namespace Zipper

theorem swap_plug {gone ins : List Tree} {t t' : Tree} {n : Nat} (h : Swap gone ins [t] n [t']) (fs : List Frame) :
    Swap gone ins [plug t fs] (start ⟨t, fs⟩ + n) [plug t' fs] := by
  induction fs generalizing t t' n with
  | nil => simpa [plug, start] using h
  | cons f fs ih =>
    have hfill : Swap gone ins [f.fill t] (sizeAll f.left + n) [f.fill t'] := by
      have hswap := Swap.inside [] f.kind [] (h.append f.left.reverse f.right)
      simpa [Frame.fill] using hswap
    rw [plug, plug, start_above t (f.fill t), Nat.add_assoc]
    exact ih hfill

theorem isNode_plug {t : Tree} (h : t.isNode = true) (fs : List Frame) : (plug t fs).isNode = true := by
  induction fs generalizing t with
  | nil => exact h
  | cons f fs ih => exact ih rfl

theorem above_ne_nil {z : Zipper} (hz : z.isToken = true) (hroot : z.root.isNode = true) : z.above ≠ [] := by
  intro hnil
  rw [root, hnil, plug, isNode_eq] at hroot
  rw [isToken] at hz
  simp [hz] at hroot

theorem swap_replace (z : Zipper) (t : Tree) : Swap [z.focus] [t] [z.root] z.start [z.replace t] :=
  swap_plug (@Swap.here [z.focus] [t] [] []) z.above

theorem swap_splice (z : Zipper) (hz : z.above ≠ []) (ts : List Tree) :
    ∃ tree, z.splice? ts = some tree ∧ tree.isNode = true ∧ Swap [z.focus] ts [z.root] z.start [tree] := by
  obtain ⟨t, fs⟩ := z
  cases fs with
  | nil => exact absurd rfl hz
  | cons f fs =>
    refine ⟨_, rfl, isNode_plug rfl fs, ?_⟩
    have hfill : Swap [t] ts [f.fill t] (sizeAll f.left) [f.fillMany ts] := by
      have hswap := Swap.inside [] f.kind [] (@Swap.here [t] ts f.left.reverse f.right)
      simpa [Frame.fill, Frame.fillMany] using hswap
    rw [start_above t (f.fill t)]
    exact swap_plug hfill fs

theorem swap_spliceChildren {z : Zipper} {k : Kind} {cs : List Tree} (hf : z.focus = .node k cs) (ts : List Tree)
    {first stop : Nat} (hcs : cs = cs.take first ++ (cs.take stop).drop first ++ cs.drop stop) :
    Swap ((cs.take stop).drop first) ts [z.root] (z.start + sizeAll (cs.take first))
      [z.spliceChildren first stop ts] := by
  have hnode := Swap.inside [] k [] (@Swap.here ((cs.take stop).drop first) ts (cs.take first)
    (cs.drop stop))
  rw [← hcs, sizeAll_nil, Nat.zero_add] at hnode
  have hswap := swap_plug hnode z.above
  rw [root, spliceChildren, replace, kind, hf]
  exact hswap

theorem swap_removeToken (z : Zipper) (hz : z.above ≠ []) (unwrap : Bool) :
    ∃ tree ins, z.removeToken? unwrap = some (tree, textAll ins) ∧ tree.isNode = true ∧
      Swap [z.focus] ins [z.root] z.start [tree] := by
  rw [removeToken?]
  generalize (if z.removalJoins then [Tree.token .whitespace [' ']] else []) = ins
  obtain ⟨t, fs⟩ := z
  cases fs with
  | nil => exact absurd rfl hz
  | cons f fs =>
    have hkeep : Swap [t] ins [f.fill t] (sizeAll f.left) [.node f.kind (f.left.reverse ++ ins ++ f.right)] := by
      have hswap := Swap.inside [] f.kind [] (@Swap.here [t] ins f.left.reverse f.right)
      simpa [Frame.fill] using hswap
    rw [start_above t (f.fill t)]
    cases fs with
    | nil => exact ⟨_, ins, rfl, rfl, swap_plug hkeep []⟩
    | cons g gs =>
      refine ⟨_, ins, rfl, ?_, ?_⟩
      · dsimp only
        split
        · exact isNode_plug rfl gs
        · exact isNode_plug rfl (g :: gs)
      · dsimp only
        split
        · have hfill : Swap [t] ins [g.fill (f.fill t)] (sizeAll g.left + sizeAll f.left)
              [g.fillMany (f.left.reverse ++ ins ++ f.right)] := by
            have hswap := Swap.inside [] g.kind [] (@Swap.dissolve [t] ins g.left.reverse f.kind g.right
              f.left.reverse f.right)
            simpa [Frame.fill, Frame.fillMany] using hswap
          rw [start_above (f.fill t) (g.fill (f.fill t)), Nat.add_assoc]
          exact swap_plug hfill gs
        · exact swap_plug hkeep (g :: gs)

end Zipper

namespace Part

structure Makes (p : Part) (shift : Nat) (root tree : Tree) (new : Text) (n : Nat) (gone ins : List Tree) : Prop where
  swap : Swap gone ins [root] n [tree]
  pos : 0 < sizeAll gone
  stop : n + sizeAll gone = p.span.stop + shift
  takes : p.change.isInsertion = false → sizeAll gone = p.span.length ∧ (tree.isNode = true ∨ n = 0)
  adds : p.change.isInsertion = true → tree.isNode = true ∧
    ∃ k x ts, gone = [.token k x] ∧ ins = .token k x :: ts ∧ sizeAll ts = new.size

theorem fold_resolved {root : Tree} {p : Part} {shift : Nat} {target : Target} (hroot : root.isNode = true)
    (hp : p.Solid) (h : p.resolve root shift = .ok target) :
    ∃ tree new n gone ins, p.fold target = some (tree, new) ∧ p.Makes shift root tree new n gone ins := by
  -- An element with the span of the part is replaced.
  have whole {z : Zipper} (hspan : z.span = p.span.shift shift) (htakes : p.change.isInsertion = false)
      {tree : Tree} {ins : List Tree} (hswap : Swap [z.focus] ins [root] z.start [tree])
      (hnode : tree.isNode = true ∨ z.start = 0) (new : Text) :
      p.Makes shift root tree new z.start [z.focus] ins := by
    have hlength : z.focus.size = p.span.length := congrArg Span.length hspan
    have hstart : z.start = p.span.start + shift := congrArg Span.start hspan
    have hpos := hp htakes
    refine ⟨hswap, by simpa [hlength] using hpos, ?_, fun _ => ⟨by simpa using hlength, hnode⟩, by simp [htakes]⟩
    simp only [sizeAll_cons, sizeAll_nil, Span.stop]
    omega
  rw [resolve] at h
  split at h
  · cases h
  · cases hc : p.change with
    | replaceNode kind t =>
      simp only [hc, resolveNode] at h
      split at h
      · rename_i z hz
        cases h
        obtain ⟨rfl, hspan⟩ := Zipper.nodeAt?_place hz
        refine ⟨_, t.text, _, _, _, by simp only [fold, hc], whole hspan (by rw [hc]; rfl) (z.swap_replace t) ?_ _⟩
        obtain ⟨f, fs⟩ := z
        cases fs with
        | nil => exact Or.inr rfl
        | cons f fs => exact Or.inl (Zipper.isNode_plug rfl fs)
      · cases h
    | replaceTokens ts =>
      have htakes : p.change.isInsertion = false := by rw [hc]; rfl
      have hlength := hp htakes
      have hroot' := Zipper.root_covering root (p.span.shift shift)
      simp only [hc] at h
      rw [resolveTokens, if_neg (by simp only [Span.isEmpty, Span.shift, beq_iff_eq]; omega)] at h
      generalize Zipper.covering root (p.span.shift shift) = z at h hroot'
      subst hroot'
      have splices (hspan : z.span = p.span.shift shift) (habove : z.above ≠ []) :
          ∃ tree new n gone ins, (z.splice? ts).map (fun t => (t, textAll ts)) = some (tree, new) ∧
            p.Makes shift z.root tree new n gone ins := by
        obtain ⟨tree, hfold, hnode, hswap⟩ := z.swap_splice habove ts
        exact ⟨tree, textAll ts, _, _, _, by rw [hfold]; rfl, whole hspan htakes hswap (Or.inl hnode) _⟩
      dsimp only at h
      split at h
      · rename_i htok
        split at h
        · rename_i hz
          cases h
          simp only [fold, hc]
          exact splices (by simpa using hz) (Zipper.above_ne_nil htok hroot)
        · cases h
      · split at h
        · rename_i hz
          cases h
          simp only [fold, hc]
          rw [Bool.and_eq_true, beq_iff_eq] at hz
          exact splices hz.1 (by simpa using hz.2)
        · split at h
          · rename_i first last hfirst hlast
            split at h
            · rename_i hle
              cases h
              obtain ⟨x, hx, hxs⟩ := lastIndex?_spec hfirst
              obtain ⟨y, hy, hys⟩ := lastIndex?_spec hlast
              obtain ⟨k, cs, hf, hcs, hstart, hsize⟩ :=
                Zipper.children_between hle hx hy (by simpa using hxs) (by simpa using hys)
              simp only [Span.shift] at hstart hsize
              refine ⟨_, textAll ts, _, _, _, by simp only [fold, hc], Zipper.swap_spliceChildren hf ts hcs,
                by omega, ?_, fun _ => ⟨hsize, Or.inl ?_⟩, by simp [htakes]⟩
              · simp only [Span.stop]
                omega
              · exact Zipper.isNode_plug rfl z.above
            · cases h
          · cases h
    | removeToken kind unwrap =>
      simp only [hc, resolveToken] at h
      split at h
      · rename_i hz
        cases h
        simp only [Bool.and_eq_true, beq_iff_eq] at hz
        have hroot' := Zipper.root_covering root (p.span.shift shift)
        obtain ⟨tree, ins, hfold, hnode, hswap⟩ := Zipper.swap_removeToken _
          (Zipper.above_ne_nil hz.1.1 (by rw [hroot']; exact hroot)) unwrap
        rw [hroot'] at hswap
        exact ⟨tree, textAll ins, _, _, ins, by simp only [fold, hc, hfold],
          whole hz.2 (by rw [hc]; rfl) hswap (Or.inl hnode) _⟩
      · cases h
    | insertAfter kind ts =>
      simp only [hc, resolveAnchor] at h
      split at h
      · rename_i z hz
        split at h
        · rename_i hat
          cases h
          rw [Bool.and_eq_true, beq_iff_eq, beq_iff_eq] at hat
          obtain ⟨htok, hpos⟩ := Zipper.tokenLeftOf_spec hz
          obtain ⟨x, hx⟩ := Zipper.focus_of_isToken htok
          have hroot' := Zipper.root_tokenLeftOf hz
          obtain ⟨tree, hfold, hnode, hswap⟩ := z.swap_splice (Zipper.above_ne_nil htok (by rw [hroot']; exact hroot))
            (z.focus :: ts)
          rw [hroot'] at hswap
          have hempty : p.span.length = 0 := p.insertion_empty (by rw [hc]; rfl)
          have hstop : z.start + z.focus.size = p.span.start + shift := hat.2
          refine ⟨tree, textAll ts, _, _, _, by simp only [fold, hc, Zipper.insertAfter?, hfold]; rfl, hswap,
            by simpa using hpos, ?_, by rw [hc]; rintro ⟨⟩,
              fun _ => ⟨hnode, z.kind, x, ts, by rw [hx], by rw [hx], rfl⟩⟩
          simp only [sizeAll_cons, sizeAll_nil, Span.stop]
          omega
        · cases h
      · cases h

theorem Fits.start {p : Part} {shift n : Nat} {ts : List Tree} (h : p.Fits shift n ts)
    (htakes : p.change.isInsertion = false) : n = p.span.start + shift := by
  have hstop := h.stop
  have hlength := h.length htakes
  simp only [Span.stop] at hstop
  omega

section Made

variable {p q : Part} {shift m n : Nat} {root tree : Tree} {new : Text} {gone ins ts : List Tree}

theorem Makes.stands_before (hm : p.Makes shift root tree new n gone ins) {d : Nat} (hq : q.Stands root d)
    (hle : q.span.stop + d ≤ n) : q.Stands tree d := by
  obtain ⟨i, us, hrun, hfits⟩ := hq
  have hstop := hfits.stop
  exact ⟨i, us, hm.swap.run_before hm.pos hfits.firm hrun (by omega), hfits⟩

theorem Makes.stands_before_anchor (hm : p.Makes shift root tree new n gone ins)
    (hadds : p.change.isInsertion = true) {d : Nat} (hq : q.Stands root d)
    (hlt : q.span.stop + d < p.span.stop + shift) : q.Stands tree d := by
  obtain ⟨-, k, x, us, rfl, -, -⟩ := hm.adds hadds
  have hstop := hm.stop
  obtain ⟨i, vs, hrun, hfits⟩ := hq
  have hend := hfits.stop
  apply hm.stands_before ⟨i, vs, hrun, hfits⟩
  rw [sizeAll_cons, sizeAll_nil, size_token] at hstop
  obtain h | h := hm.swap.run_gone.token_whole hrun
  · omega
  · omega

theorem Makes.stands_anchor (hm : p.Makes shift root tree new n gone ins) (hadds : p.change.isInsertion = true)
    {d : Nat} (hq : q.Stands root d) {kind : Kind} {unwrap : Bool} (hc : q.change = .removeToken kind unwrap)
    (hstop : q.span.stop + d = p.span.stop + shift) : q.Stands tree d := by
  obtain ⟨-, k, x, us, rfl, rfl, -⟩ := hm.adds hadds
  obtain ⟨i, vs, hrun, hfits⟩ := hq
  have hend := hfits.stop
  have hat := hm.stop
  have hpos := hfits.firm.pos
  have hpos' := hm.pos
  have hsuits := hfits.suits
  rw [hc] at hsuits
  obtain ⟨y, rfl⟩ := hsuits
  simp only [sizeAll_cons, sizeAll_nil, size_token, Nat.add_zero] at hend hat hpos hpos'
  -- Both are the token that ends there.
  obtain ⟨z, hz, hzf, hzs⟩ := Zipper.mem_leaves_of_run hrun
  obtain ⟨w, hw, hwf, hws⟩ := Zipper.mem_leaves_of_run hm.swap.run_gone
  have hzt := Zipper.tokenLeftOf_leaf hz (by rw [hzf]; exact hpos)
  have hwt := Zipper.tokenLeftOf_leaf hw (by rw [hwf]; exact hpos')
  have hsame : z.span.stop = w.span.stop := by
    simp only [Zipper.span, Span.stop, hzf, hwf, hzs, hws, size_token]
    omega
  rw [hsame, hwt] at hzt
  obtain rfl := Option.some.inj hzt
  rw [hwf] at hzf
  cases hzf
  have hstay := Run.sub (a := []) (b := [.token kind x]) (c := us) hm.swap.run_ins
  rw [sizeAll_nil, Nat.add_zero, ← hws, hzs] at hstay
  exact ⟨i, _, hstay, hfits⟩

theorem Makes.stands_after (hm : p.Makes 0 root tree new n gone ins) (hadds : p.change.isInsertion = true)
    (hq : q.Stands root 0) (htakes : q.change.isInsertion = false) (hstart : q.span.start = p.span.stop) :
    q.Stands tree new.size := by
  obtain ⟨-, k, x, us, rfl, rfl, hus⟩ := hm.adds hadds
  obtain ⟨i, vs, hrun, hfits⟩ := hq
  have hat := hm.stop
  have hend := hfits.stop
  have hi : i = n + sizeAll [Tree.token k x] + 0 := by
    have hstart' := hfits.start htakes
    omega
  rw [hi] at hrun
  refine ⟨_, vs, hm.swap.run_after hm.pos hfits.firm hrun, hfits.firm, hfits.suits, ?_, hfits.length⟩
  simp only [sizeAll_cons, sizeAll_nil] at hat hi ⊢
  omega

end Made

/-- An insertion is not made at the end of what another part replaces. -/
def Spares (p q : Part) : Prop :=
  p.change.isInsertion = true → q.change.isReplacement = true → q.span.stop ≠ p.span.start

instance (p : Part) : Decidable p.Solid :=
  inferInstanceAs (Decidable (_ → _))

instance (p q : Part) : Decidable (p.Spares q) :=
  inferInstanceAs (Decidable (_ → _ → _))

end Part

namespace Batch

structure Ready (g : Progress) (ahead : List (String × Part)) : Prop where
  root : ahead ≠ [] → g.tree.isNode = true
  stands : ∀ x ∈ ahead, x.2.Stands g.tree (g.shift x.2.span.start)
  inserted : ∀ a ∈ g.inserted, ∀ x ∈ ahead,
    x.2.span.start ≤ a.1 ∧ (x.2.span.start = a.1 → x.2.change.isInsertion = false)

theorem Ready.step_takes {g : Progress} {x : String × Part} {ahead : List (String × Part)} (h : Ready g (x :: ahead))
    (hsolid : ∀ y ∈ x :: ahead, y.2.Solid) (hx : ∀ y ∈ ahead, x.2.span.yields y.2.span)
    (htakes : x.2.change.isInsertion = false) {tree : Tree} {new : Text} {n : Nat} {gone ins : List Tree}
    (hm : x.2.Makes (g.shift x.2.span.start) g.tree tree new n gone ins) (made : List Applied) :
    Ready { tree, made, inserted := g.inserted } ahead := by
  have hlength := hsolid x List.mem_cons_self htakes
  obtain ⟨hgone, hnode⟩ := hm.takes htakes
  have hn := hm.stop
  have hbefore : ∀ y ∈ ahead, y.2.span.stop ≤ x.2.span.start := by
    intro y hy
    have hyield := hx y hy
    simp only [Span.yields, Span.leads] at hyield
    omega
  have hshift : ∀ y ∈ ahead, g.shift y.2.span.start = 0 := by
    intro y hy
    apply shift_eq_zero
    intro a ha heq
    have hxa := (h.inserted a ha x List.mem_cons_self).1
    have hya := (h.inserted a ha y (List.mem_cons_of_mem _ hy)).2 heq.symm
    have hpos := hsolid y (List.mem_cons_of_mem _ hy) hya
    have hle := hbefore y hy
    simp only [Span.stop] at hle
    omega
  have hstands : ∀ y ∈ ahead, y.2.Stands g.tree 0 ∧ y.2.span.stop + 0 ≤ n := by
    intro y hy
    have hle := hbefore y hy
    have hy' := h.stands y (List.mem_cons_of_mem _ hy)
    rw [hshift y hy] at hy'
    refine ⟨hy', ?_⟩
    simp only [Span.stop] at hn hle ⊢
    omega
  refine ⟨?_, ?_, fun a ha y hy => h.inserted a ha y (List.mem_cons_of_mem _ hy)⟩
  · intro hne
    obtain ⟨y, hy⟩ := List.exists_mem_of_ne_nil ahead hne
    obtain ⟨⟨i, us, -, hfits⟩, hle⟩ := hstands y hy
    have hpos := hfits.firm.pos
    have hstop := hfits.stop
    exact hnode.resolve_right (by omega)
  · intro y hy
    obtain ⟨hy', hle⟩ := hstands y hy
    change y.2.Stands tree (g.shift y.2.span.start)
    rw [hshift y hy]
    exact hm.stands_before hy' hle

theorem Ready.step_adds {g : Progress} {x : String × Part} {ahead : List (String × Part)} (h : Ready g (x :: ahead))
    (hx : ∀ y ∈ ahead, x.2.span.yields y.2.span ∧ x.2.Spares y.2)
    (hadds : x.2.change.isInsertion = true) {tree : Tree} {new : Text} {n : Nat} {gone ins : List Tree}
    (hm : x.2.Makes (g.shift x.2.span.start) g.tree tree new n gone ins) (made : List Applied) :
    Ready { tree, made, inserted := some (x.2.span.start, g.shift x.2.span.start + new.size) } ahead := by
  have hempty := x.2.insertion_empty hadds
  have hfree : ∀ a ∈ g.inserted, a.1 ≠ x.2.span.start := by
    intro a ha heq
    have hx' := (h.inserted a ha x List.mem_cons_self).2 heq.symm
    rw [hadds] at hx'
    cases hx'
  rw [shift_eq_zero hfree] at hm ⊢
  -- A part that lies before the insertion was not moved, and is not moved now.
  have hcases : ∀ y ∈ ahead, (y.2.span.start < x.2.span.start ∧ y.2.span.stop ≤ x.2.span.start) ∨
      (y.2.span.start = x.2.span.start ∧ y.2.change.isInsertion = false) := by
    intro y hy
    obtain ⟨hle, hor⟩ | ⟨⟨-, hor⟩, -, heq⟩ := (hx y hy).1
    · left
      omega
    · right
      refine ⟨heq.symm, ?_⟩
      rw [← Bool.not_eq_true]
      intro hc
      have hy' := y.2.insertion_empty hc
      omega
  have hshift : ∀ y ∈ ahead, g.shift y.2.span.start = 0 := by
    intro y hy
    apply shift_eq_zero
    intro a ha heq
    have hle := (h.inserted a ha x List.mem_cons_self).1
    have hne := hfree a ha
    obtain ⟨hlt, -⟩ | ⟨heq', -⟩ := hcases y hy
    · omega
    · omega
  refine ⟨fun _ => (hm.adds hadds).1, ?_, ?_⟩
  · intro y hy
    have hy' := h.stands y (List.mem_cons_of_mem _ hy)
    rw [hshift y hy] at hy'
    obtain ⟨hlt, hle⟩ | ⟨heq, htakes⟩ := hcases y hy
    · have hzero : Progress.shift { tree, made, inserted := some (x.2.span.start, 0 + new.size) } y.2.span.start = 0 :=
        shift_eq_zero (by rintro a ⟨⟩; simp only; omega)
      rw [hzero]
      by_cases hstop : y.2.span.stop = x.2.span.stop
      · have hkeeps : y.2.change.isReplacement = false := by
          rw [← Bool.not_eq_true]
          intro hc
          have hne := (hx y hy).2 hadds hc
          simp only [Span.stop] at hstop hne
          omega
        cases hc : y.2.change with
        | replaceNode kind t => simp [hc, Change.isReplacement] at hkeeps
        | replaceTokens ts => simp [hc, Change.isReplacement] at hkeeps
        | removeToken kind unwrap => exact hm.stands_anchor hadds hy' hc (by rw [hstop])
        | insertAfter kind ts =>
          have hy'' := y.2.insertion_empty (by rw [hc]; rfl)
          simp only [Span.stop] at hstop
          omega
      · apply hm.stands_before_anchor hadds hy'
        simp only [Span.stop] at hstop hle ⊢
        omega
    · have hmoved : Progress.shift { tree, made, inserted := some (x.2.span.start, 0 + new.size) } y.2.span.start =
          new.size := by
        simp [Progress.shift, heq]
      rw [hmoved]
      apply hm.stands_after hadds hy' htakes
      simp only [Span.stop]
      omega
  · rintro a ⟨⟩ y hy
    obtain ⟨hlt, -⟩ | ⟨heq, htakes⟩ := hcases y hy
    · exact ⟨Nat.le_of_lt hlt, fun heq => by simp only at heq; omega⟩
    · exact ⟨Nat.le_of_eq heq, fun _ => htakes⟩

theorem Ready.step {g : Progress} {x : String × Part} {ahead : List (String × Part)} (h : Ready g (x :: ahead))
    (hsolid : ∀ y ∈ x :: ahead, y.2.Solid)
    (hx : ∀ y ∈ ahead, x.2.span.yields y.2.span ∧ x.2.Spares y.2) :
    ∃ g', Batch.step g x = .ok g' ∧ Ready g' ahead := by
  have hroot := h.root (by simp)
  obtain ⟨target, hr⟩ := Part.resolve_of_stands hroot (h.stands x List.mem_cons_self)
  obtain ⟨tree, new, n, gone, ins, hf, hm⟩ := Part.fold_resolved hroot (hsolid x List.mem_cons_self) hr
  refine ⟨_, step_made hr hf, ?_⟩
  cases hc : x.2.change.isInsertion with
  | false =>
    have hlength := hsolid x List.mem_cons_self hc
    rw [if_neg (by simp only [Span.isEmpty, beq_iff_eq]; omega)]
    exact h.step_takes hsolid (fun y hy => (hx y hy).1) hc hm _
  | true =>
    rw [if_pos (by simp [Span.isEmpty, x.2.insertion_empty hc])]
    exact h.step_adds hx hc hm _

theorem Ready.run {g : Progress} {ahead : List (String × Part)} (h : Ready g ahead)
    (hsolid : ∀ y ∈ ahead, y.2.Solid)
    (hx : ahead.Pairwise (fun x y => x.2.span.yields y.2.span ∧ x.2.Spares y.2)) :
    ∃ g', ahead.foldlM Batch.step g = .ok g' := by
  induction ahead generalizing g with
  | nil => exact ⟨g, rfl⟩
  | cons x ahead ih =>
    obtain ⟨hfirst, hrest⟩ := List.pairwise_cons.mp hx
    obtain ⟨g₁, hstep, h₁⟩ := h.step hsolid hfirst
    obtain ⟨g₂, hrun⟩ := ih h₁ (fun y hy => hsolid y (List.mem_cons_of_mem _ hy)) hrest
    exact ⟨g₂, by rw [List.foldlM_cons, hstep]; exact hrun⟩

theorem resolve_accepted {root : Tree} {edits : List Edit} {e : Edit} (he : e ∈ accepted root edits) {p : Part}
    (hp : p ∈ e.parts) : ∃ target, p.resolve root 0 = .ok target := by
  simp only [accepted, List.mem_filterMap, List.mem_map] at he
  obtain ⟨_, ⟨⟨f, i⟩, hf, rfl⟩, he⟩ := he
  split at he
  · rename_i ho
    cases he
    simp only [objection?, Option.isNone_iff_eq_none] at ho
    split at ho
    · cases ho
    · split at ho
      · cases ho
      · split at ho
        · rename_i hall
          have hsome := List.all_eq_true.mp hall p hp
          cases hr : p.resolve root 0 with
          | error u => simp [hr, Except.toOption] at hsome
          | ok target => exact ⟨target, rfl⟩
        · cases ho
  · cases he

theorem mem_partsOf {edits : List Edit} {x : String × Part} (h : x ∈ partsOf edits) :
    ∃ e ∈ edits, x.2 ∈ e.parts := by
  rw [partsOf, List.mem_mergeSort] at h
  obtain ⟨e, he, hx⟩ := List.mem_flatMap.mp h
  obtain ⟨p, hp, rfl⟩ := List.mem_map.mp hx
  exact ⟨e, he, hp⟩

/-- A batch goes through and makes all edits it does not leave out, if every edit takes text away or inserts, and
nothing is inserted at the end of what is replaced. -/
theorem apply_sparing {source : Source} {edits : List Edit} (hroot : source.tree.isNode = true)
    (hparts : ∀ e ∈ edits, e.parts.Pairwise (fun p q => p.span.conflicts q.span = false))
    (hsolid : ∀ e ∈ accepted source.tree edits, ∀ p ∈ e.parts, p.Solid)
    (hspares : ∀ e ∈ accepted source.tree edits, ∀ p ∈ e.parts,
      ∀ f ∈ accepted source.tree edits, ∀ q ∈ f.parts, p.Spares q) :
    ∃ r, apply source edits false = .ok r ∧ r.applied = (accepted source.tree edits).map (·.finding) := by
  have hyields := @pairwise_partsOf source.tree edits hparts
  have hall : ∀ x ∈ partsOf (accepted source.tree edits), x.2.Solid := by
    intro x hx
    obtain ⟨e, he, hp⟩ := mem_partsOf hx
    exact hsolid e he x.2 hp
  have hready : Ready { tree := source.tree } (partsOf (accepted source.tree edits)) := by
    refine ⟨fun _ => hroot, ?_, by simp⟩
    intro x hx
    obtain ⟨e, he, hp⟩ := mem_partsOf hx
    obtain ⟨target, hr⟩ := resolve_accepted he hp
    exact Part.stands_of_resolve hr (hall x hx)
  have hpairs : (partsOf (accepted source.tree edits)).Pairwise
      (fun x y => x.2.span.yields y.2.span ∧ x.2.Spares y.2) := by
    apply hyields.imp_of_mem
    intro x y hx hy hxy
    obtain ⟨e, he, hp⟩ := mem_partsOf hx
    obtain ⟨f, hf, hq⟩ := mem_partsOf hy
    exact ⟨hxy, hspares e he x.2 hp f hf y.2 hq⟩
  obtain ⟨g, hrun⟩ := hready.run hall hpairs
  have hoverlap := overlap?_of_pairwise hyields
  rw [apply_uncancelled]
  dsimp only
  rw [hoverlap, hrun]
  split
  · rename_i hnil
    refine ⟨_, rfl, ?_⟩
    rw [List.isEmpty_iff.mp hnil]
    rfl
  · exact ⟨_, rfl, rfl⟩

theorem apply_sparing_unparenthesizing : ∃ r, apply parenthesizedReturn unparenthesizing false = .ok r ∧
    r.applied = unparenthesizing.map (·.finding) := by
  have hall : accepted parenthesizedReturn.tree unparenthesizing = unparenthesizing := rfl
  have h := @apply_sparing parenthesizedReturn unparenthesizing rfl (by decide)
    (by rw [hall]; decide) (by rw [hall]; decide)
  rw [hall] at h
  exact h

def nameStatement : Source :=
  ⟨.node .exprStmt [.node .nameExpr [.token .ident ['x']], .token .semicolon [';']], none⟩

def spacedRename : List Edit :=
  [{ finding := { rule := "a", span := ⟨1, 0⟩ }
     parts := [⟨⟨1, 0⟩, .insertAfter .ident [.token .whitespace [' ']], fun _ => rfl⟩] },
    { finding := { rule := "b", span := ⟨0, 1⟩ }
      parts := [⟨⟨0, 1⟩, .replaceNode .nameExpr (.node .nameExpr [.token .ident ['y']]), nofun⟩] }]

/-- An insertion at the end of a node widens it, so that it is no longer found: the batch fails, though all of its
parts have something to change and no two of them conflict. -/
theorem apply_spacedRename : accepted nameStatement.tree spacedRename = spacedRename ∧
    (∀ e ∈ spacedRename, e.parts.Pairwise (fun p q => p.span.conflicts q.span = false)) ∧
    apply nameStatement spacedRename false = .error (.failure (.internal
      "validated edit for b failed to resolve: no node of the expected kind spans the range")) := by
  have hall : accepted nameStatement.tree spacedRename = spacedRename := rfl
  have hparts : partsOf spacedRename = tagged spacedRename := partsOf_eq (.refl _) (by decide)
  refine ⟨hall, by decide, ?_⟩
  rw [apply_uncancelled]
  dsimp only
  rw [hall, hparts]
  rfl

end Batch

end Lintel
