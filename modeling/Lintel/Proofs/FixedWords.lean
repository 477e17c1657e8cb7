import Lintel.Proofs.FixedLeaves

namespace Lintel

theorem Cell.any_congr {p : Cell → Bool} (hp : ∀ c d : Cell, c.toToken = d.toToken → p c = p d) {cs ds : List Cell}
    (h : cs.map (·.toToken) = ds.map (·.toToken)) : cs.any p = ds.any p := by
  induction cs generalizing ds with
  | nil =>
    rw [List.map_eq_nil_iff.mp h.symm]
  | cons c cs ih =>
    obtain ⟨d, ds, rfl, hd, hds⟩ := List.map_eq_cons_iff.mp h.symm
    rw [List.any_cons, List.any_cons, hp c d hd.symm, ih hds.symm]

theorem Cell.isBlank_congr (c d : Cell) (h : c.toToken = d.toToken) : c.isBlank = d.isBlank := by
  rw [isBlank, isBlank, h]

theorem Cell.isBarrier_congr (c d : Cell) (h : c.toToken = d.toToken) : c.isBarrier = d.isBarrier := by
  rw [isBarrier, isBarrier, isLineComment, isLineComment, h]

namespace Word

theorem exists_split {ws : List Word} {lead as bs : List Cell} {c : Cell} (hlead : ∀ c ∈ lead, c.isTrivia = true)
    (h : lead ++ flatten ws = as ++ c :: bs) (hc : c.isTrivia = false) : ∃ pre w post, ws = pre ++ w :: post ∧
      as = lead ++ flatten pre ∧ w.head = c ∧ bs = w.gap ++ flatten post := by
  induction ws generalizing lead as with
  | nil =>
    have hmem : c ∈ lead := by
      rw [show lead = as ++ c :: bs by simpa [flatten] using h]
      simp
    rw [hlead c hmem] at hc
    cases hc
  | cons w ws ih =>
    -- The cell is not among those at the start, which are trivia.
    obtain ⟨as', rfl, hrest⟩ : ∃ as', as = lead ++ as' ∧ flatten (w :: ws) = as' ++ c :: bs := by
      obtain ⟨as', has, hrest⟩ | ⟨cs, hcs, hrest⟩ := List.append_eq_append_iff.mp h
      · exact ⟨as', has, hrest⟩
      · cases cs with
        | nil => exact ⟨[], by simpa using hcs.symm, hrest.symm⟩
        | cons d cs =>
          obtain ⟨rfl, -⟩ := List.cons.inj hrest
          rw [hlead c (by rw [hcs]; simp)] at hc
          cases hc
    cases as' with
    | nil =>
      obtain ⟨hhead, htail⟩ := List.cons.inj hrest
      exact ⟨[], w, ws, rfl, rfl, hhead, htail.symm⟩
    | cons d as' =>
      obtain ⟨rfl, htail⟩ := List.cons.inj hrest
      obtain ⟨pre, v, post, rfl, rfl, hv, hbs⟩ := ih w.gap_trivia htail
      exact ⟨w :: pre, v, post, rfl, rfl, hv, hbs⟩

theorem trivia_gap (w : Word) : ∀ u ∈ w.gap.map (·.toToken), u.isTrivia = true := by
  intro u hu
  obtain ⟨c, hc, rfl⟩ := List.mem_map.mp hu
  exact w.gap_trivia c hc

theorem takeWhile_gap (w : Word) (ws : List Word) : ((w.gap ++ flatten ws).map (·.toToken)).takeWhile (·.isTrivia) =
    w.gap.map (·.toToken) ∧ ((w.gap ++ flatten ws).map (·.toToken)).dropWhile (·.isTrivia) =
      (flatten ws).map (·.toToken) := by
  rw [List.map_append, List.takeWhile_append_of_pos w.trivia_gap, List.dropWhile_append_of_pos w.trivia_gap]
  cases ws with
  | nil => simp [flatten]
  | cons v ws =>
    have hhead : ¬ v.head.toToken.isTrivia = true := by simp [v.head_significant]
    rw [flatten_cons, List.map_cons, List.takeWhile_cons_of_neg hhead, List.dropWhile_cons_of_neg hhead]
    simp

end Word

namespace KeywordSpacing

open Word

theorem spaceFirst_append (ms : List Mark) (m : Mark) (ns : List Mark) :
    ∃ ms' m', spaceFirst (ms ++ m :: ns) = ms' ++ m' :: ns ∧ ms'.length = ms.length := by
  cases ms with
  | nil => exact ⟨[], { m with spaced := some id }, rfl, rfl⟩
  | cons l ms => exact ⟨{ l with spaced := some id } :: ms, m, rfl, rfl⟩

theorem marksFrom_append (pre : List Word) (w : Word) (post : List Word) :
    ∃ ms m, marksFrom (pre ++ w :: post) = ms ++ m :: marksAfter w post (marksFrom post) ∧
      ms.length = (flatten pre).length := by
  induction pre with
  | nil => exact ⟨[], plain w.head, rfl, rfl⟩
  | cons v pre ih =>
    obtain ⟨ms, m, hms, hlength⟩ := ih
    obtain ⟨ns, n, hns, hlength'⟩ : ∃ ns n, marksAfter v (pre ++ w :: post) (marksFrom (pre ++ w :: post)) =
        ns ++ n :: marksAfter w post (marksFrom post) ∧ ns.length = v.gap.length + ms.length := by
      rw [hms, marksAfter]
      split
      · obtain ⟨ns, n, hns, hlength'⟩ := spaceFirst_append (v.gap.map plain ++ ms) m
          (marksAfter w post (marksFrom post))
        exact ⟨ns, n, by rw [← hns, List.append_assoc], by simpa using hlength'⟩
      · exact ⟨v.gap.map cleared ++ ms, m, by rw [List.append_assoc], by simp⟩
      · exact ⟨v.gap.map plain ++ ms, m, by rw [List.append_assoc], by simp⟩
    refine ⟨plain v.head :: ns, n, by rw [List.cons_append, marksFrom, hns]; rfl, ?_⟩
    rw [flatten_cons, List.length_cons, List.length_cons, List.length_append, hlength', hlength]

theorem Clearable.staysApart {pre post : List Word} {w : Word} (h : Clearable (pre ++ w :: post))
    (hr : ruling w post = .clear) :
    ∀ n ∈ post.head?, Lintel.staysApart w.head.text n.head.text = true := by
  induction pre with
  | nil => exact h.1 hr
  | cons v pre ih => exact ih h.2

theorem exists_after_of_pad {w : Word} {ws : List Word} (h : ruling w ws = .pad) : w.gap ++ flatten ws ≠ [] := by
  intro hnil
  obtain ⟨hgap, hws⟩ := List.append_eq_nil_iff.mp hnil
  cases ws with
  | nil =>
    simp [ruling, hgap] at h
    split at h <;> cases h
  | cons v ws => cases hws

end KeywordSpacing

namespace Patch

variable {last : Option Token} {ps qs : List Patch}

theorem Filling.drop {p : Patch} (h : Filling last (ps ++ p :: qs)) : Filling (some p.token) qs := by
  induction ps generalizing last with
  | nil => exact h.2
  | cons q ps ih => exact ih h.2

theorem flatMap_image_plain {cs : List Cell} (h : ps.map (·.toMark) = cs.map KeywordSpacing.plain) :
    ps.flatMap image = cs.map (·.toToken) := by
  induction ps generalizing cs with
  | nil =>
    rw [List.map_nil, eq_comm, List.map_eq_nil_iff] at h
    rw [h]
    rfl
  | cons p ps ih =>
    obtain ⟨c, cs, rfl, hc, hrest⟩ := List.map_eq_cons_iff.mp h.symm
    have hc : p.toMark = KeywordSpacing.plain c := hc.symm
    have himage : p.image = [c.toToken] := by
      rw [image, lead, hc]
      rfl
    rw [List.flatMap_cons, List.map_cons, himage, ih hrest.symm]
    rfl

theorem Filling.flatMap_image_cleared {cs : List Cell} (h : Filling last (ps ++ qs))
    (hmarks : ps.map (·.toMark) = cs.map KeywordSpacing.cleared) (htrivia : ∀ c ∈ cs, c.isTrivia = true)
    (hapart : ∀ l ∈ last, l.isTrivia = false → ∀ u ∈ (qs.flatMap image).head?, staysApart l.text u.text = true) :
    ps.flatMap image = (cs.filter (!·.isBlank)).map (·.toToken) := by
  induction ps generalizing last cs with
  | nil =>
    rw [List.map_nil, eq_comm, List.map_eq_nil_iff] at hmarks
    rw [hmarks]
    rfl
  | cons p ps ih =>
    obtain ⟨c, cs, rfl, hc, hrest⟩ := List.map_eq_cons_iff.mp hmarks.symm
    have hc : p.toMark = KeywordSpacing.cleared c := hc.symm
    have htoken : p.token = c.toToken := by rw [hc]; rfl
    have hlead : p.lead = [] := by rw [lead, hc]; rfl
    have hctrivia : c.isTrivia = true := htrivia c List.mem_cons_self
    have htail := ih h.2 hrest.symm (fun d hd => htrivia d (List.mem_cons_of_mem _ hd)) (by
      intro l hl hsig
      obtain rfl : p.token = l := Option.some.inj hl
      rw [htoken, hctrivia] at hsig
      cases hsig)
    rw [List.flatMap_cons, htail]
    cases hb : c.isBlank with
    | false =>
      have hgone : p.gone = none := by rw [hc]; simp [KeywordSpacing.cleared, hb]
      rw [List.filter_cons_of_pos (by simp [hb]), image, hlead, hgone, htoken]
      rfl
    | true =>
      have hgone : p.gone.isSome = true := by rw [hc]; simp [KeywordSpacing.cleared, hb]
      have hfiller : p.filler = [] := by
        obtain hnil | ⟨-, l, hl, u, hu, hlsig, husig, hjoin⟩ := h.1 hgone
        · exact hnil
        -- What comes next is trivia that stays, or else what follows the gap.
        have hl : l ∈ last := by
          rw [hlead, List.append_nil] at hl
          cases last with
          | none => cases hl
          | some l' => simpa using hl
        have hu : u ∈ (ps.flatMap image ++ qs.flatMap image).head? := by
          rw [← List.flatMap_append]
          exact hu
        rw [htail] at hu
        cases hcs : cs.filter (!·.isBlank) with
        | nil =>
          rw [hcs] at hu
          rw [hapart l hl hlsig u hu] at hjoin
          cases hjoin
        | cons d ds =>
          have hd : d ∈ cs := (List.mem_filter.mp (by rw [hcs]; simp : d ∈ cs.filter (!·.isBlank))).1
          rw [hcs] at hu
          obtain rfl : d.toToken = u := by simpa using hu
          rw [htrivia d (List.mem_cons_of_mem _ hd)] at husig
          cases husig
      rw [List.filter_cons_of_neg (by simp [hb]), image, hlead, if_pos hgone, hfiller]
      rfl

end Patch

namespace Parentheses

open Zipper Grammar Word

section Faultless

variable {t : Text} (h : (parse t).faults = [])

include h

theorem kind_after_opening {ls gs mid rs : List Zipper} {z y : Zipper}
    (hleaves : leaves (parse t).tree = ls ++ z :: (gs ++ mid ++ y :: rs))
    (hz : z.cell.trait = (.lParen, true)) (hgs : ∀ g ∈ gs, g.token.isTrivia = true)
    (hmid : ∀ x ∈ mid, x.token.isTrivia = false → goes x.erase = true) (hy : y.token.isTrivia = false) :
    y.cell.kind ∉ closing := by
  obtain ⟨ds, hds⟩ : ∃ ds, (parse t).tree = .node .compilationUnit ds := ⟨_, rfl⟩
  have hzsig : z.token.isTrivia = false := by
    rw [Token.isTrivia, show z.token.kind = .lParen from congrArg (·.1) hz]
    rfl
  induction mid generalizing ls gs z with
  | nil =>
    have hrank : y.rank = z.rank + 1 := by
      have hsplit := hleaves
      rw [List.append_nil, hds] at hsplit
      exact rank_succ hsplit hzsig hgs
    have hbar := mayMeet_of_rank h (by rw [hleaves]; simp) (by rw [hleaves]; simp) hzsig hy hrank .opener
    rw [hz] at hbar
    simpa [Bar.stops, Cell.trait] using hbar rfl
  | cons x mid ih =>
    cases hx : x.token.isTrivia with
    | true =>
      have hsplit : leaves (parse t).tree = ls ++ z :: (gs ++ [x] ++ mid ++ y :: rs) := by simpa using hleaves
      refine ih hsplit hz ?_ (fun u hu => hmid u (List.mem_cons_of_mem _ hu)) hzsig
      intro g hg
      obtain hg | hg := List.mem_append.mp hg
      · exact hgs g hg
      · rw [List.mem_singleton.mp hg, hx]
    | false =>
      have hleaf : x ∈ leaves (parse t).tree := by rw [hleaves]; simp
      have hrank : x.rank = z.rank + 1 := by
        have hsplit : leaves (parse t).tree = ls ++ z :: (gs ++ x :: (mid ++ y :: rs)) := by simpa using hleaves
        rw [hds] at hsplit
        exact rank_succ hsplit hzsig hgs
      have hbar := mayMeet_of_rank h (by rw [hleaves]; simp) hleaf hzsig hx hrank .opener
      rw [hz] at hbar
      obtain htrait | htrait := trait_of_goes h hleaf hx (hmid x List.mem_cons_self hx)
      · have hsplit : leaves (parse t).tree = (ls ++ z :: gs) ++ x :: ([] ++ mid ++ y :: rs) := by simpa using hleaves
        exact ih hsplit htrait (by simp) (fun u hu => hmid u (List.mem_cons_of_mem _ hu)) hx
      · rw [htrait] at hbar
        exact absurd (hbar rfl) (by decide)

end Faultless

theorem spacing?_of_not_mem_callers {k : Kind} (hk : k ∈ KeywordSpacing.kinds) (hcall : k ∉ callers) (owner : Kind)
    {next : Option Kind} (hnext : next ≠ some .semicolon) :
    KeywordSpacing.spacing? k (some owner) (some .lParen) = some .required ∧
      KeywordSpacing.spacing? k (some owner) next ≠ some .disallowed := by
  unfold KeywordSpacing.spacing?
  split <;> simp_all [callers, callKinds]

section Words

variable {t : Text} (h : (parse t).faults = []) {lead : List Cell} {ws : List Word}
  (hcells : (parse t).tree.cells .compilationUnit = lead ++ flatten ws) {ps : List Patch} {tree : Tree}
  (hfix : Fixed t lead ws ps tree) (s : Survivor t ps tree) {pre post : List Word} {w : Word}
  (hws : ws = pre ++ w :: post) (hbefore : s.before.map cell = lead ++ flatten pre)
  (hafter : s.after.map cell = w.gap ++ flatten post)

include hfix hws hbefore

theorem Survivor.marks_after : s.post.map (·.toMark) = List.zipWith Mark.atop (s.after.map (goneMark (parse t).tree))
    (KeywordSpacing.marksAfter w post (KeywordSpacing.marksFrom post)) := by
  obtain ⟨ms, m, hms, hlength⟩ := KeywordSpacing.marksFrom_append pre w post
  have hcount : (s.before.map (goneMark (parse t).tree)).length = (lead.map KeywordSpacing.plain ++ ms).length := by
    have hmap := congrArg List.length hbefore
    rw [List.length_map, List.length_append] at hmap
    rw [List.length_map, hmap, List.length_append, List.length_map, hlength]
  have hmarks := (congrArg (List.map (·.toMark)) s.patches).symm.trans hfix.marks
  rw [marksOf, s.leaves_old, List.map_append, List.map_cons, List.map_append, List.map_cons, hws, hms,
    ← List.append_assoc, List.zipWith_append hcount, List.zipWith_cons_cons] at hmarks
  have hpre : (s.pre.map (·.toMark)).length =
      (List.zipWith Mark.atop (s.before.map (goneMark (parse t).tree))
        (lead.map KeywordSpacing.plain ++ ms)).length := by
    rw [List.length_zipWith, ← hcount, Nat.min_self, List.length_map, List.length_map, s.matched_before.length_eq]
  exact (List.cons.inj (List.append_inj_right hmarks hpre)).2

include hafter

theorem Survivor.space_after (hr : KeywordSpacing.ruling w post = .pad) :
    ∃ us, s.newAfter.map token = .space :: us := by
  have hmarks := s.marks_after hfix hws hbefore
  have hne := KeywordSpacing.exists_after_of_pad hr
  rw [KeywordSpacing.marksAfter, hr] at hmarks
  have hlist : (w.gap.map KeywordSpacing.plain ++ KeywordSpacing.marksFrom post).length = s.after.length := by
    have hmap := congrArg List.length hafter
    have htokens := congrArg List.length (KeywordSpacing.map_token_marksFrom post)
    rw [List.length_map, List.length_map] at htokens
    rw [List.length_append, List.length_map, htokens, ← List.length_append, ← hmap, List.length_map]
  generalize w.gap.map KeywordSpacing.plain ++ KeywordSpacing.marksFrom post = ms at hmarks hlist
  cases ms with
  | nil =>
    rw [List.length_nil, eq_comm, List.length_eq_zero_iff] at hlist
    rw [hlist] at hafter
    exact absurd hafter.symm hne
  | cons m ms =>
    cases hs : s.after with
    | nil =>
      rw [hs] at hlist
      cases hlist
    | cons z zs =>
      rw [hs] at hmarks
      obtain ⟨p, qs, hpost, hp, -⟩ := List.map_eq_cons_iff.mp hmarks
      have hspaced : p.spaced = some KeywordSpacing.id := congrArg (·.spaced) hp
      rw [s.tokens_after, hpost, List.flatMap_cons, Patch.image, Patch.lead, hspaced]
      exact ⟨_, rfl⟩

include h

theorem Survivor.exists_gap (hhead : s.old.cell = w.head) (hspacing : KeywordSpacing.spacingOf? w post ≠ none)
    (hr : KeywordSpacing.ruling w post ≠ .pad) :
    ∃ gs qs gp qp, s.after = gs ++ qs ∧ gs.map cell = w.gap ∧ qs.map cell = flatten post ∧ s.post = gp ++ qp ∧
      gp.map (·.toMark) = w.gap.map
      (if KeywordSpacing.ruling w post = .clear then KeywordSpacing.cleared else KeywordSpacing.plain) ∧
      List.Forall₂ Matched qs qp ∧ ∀ p ∈ qp.head?, p.spaced = none := by
  obtain ⟨gs, qs, hsplit, hgs, hqs⟩ := List.map_eq_append_iff.mp hafter
  have hmarks := s.marks_after hfix hws hbefore
  have hshape : KeywordSpacing.marksAfter w post (KeywordSpacing.marksFrom post) =
      w.gap.map (if KeywordSpacing.ruling w post = .clear then KeywordSpacing.cleared else KeywordSpacing.plain) ++
        KeywordSpacing.marksFrom post := by
    rw [KeywordSpacing.marksAfter]
    split
    · rename_i hpad
      exact absurd hpad hr
    · rename_i hclear
      rw [if_pos hclear]
    · rename_i hclear
      rw [if_neg hclear]
  generalize (if KeywordSpacing.ruling w post = .clear then KeywordSpacing.cleared else KeywordSpacing.plain) =
    f at hshape ⊢
  have hcount : (gs.map (goneMark (parse t).tree)).length = (w.gap.map f).length := by
    rw [← hgs, List.length_map, List.length_map, List.length_map]
  rw [hsplit, hshape, List.map_append, List.zipWith_append hcount] at hmarks
  obtain ⟨gp, qp, hpost, hgp, hqp⟩ := List.map_eq_append_iff.mp hmarks
  have hleaves := s.leaves_old
  rw [hsplit] at hleaves
  refine ⟨gs, qs, gp, qp, hsplit, hgs, hqs, hpost, ?_, ?_, ?_⟩
  · rw [hgp, ← hgs, List.map_map, List.zipWith_map, List.zipWith_self]
    refine List.map_congr_left fun g hg => ?_
    have hstays := gap_stays h hleaves hhead hgs hspacing hg
    have hgl : g ∈ leaves (parse t).tree := by rw [hleaves]; simp [hg]
    have hgone : (goneMark (parse t).tree g).gone = none :=
      gone_goneMark_of_stays (mt (start_goneIn h hgl).mp hstays)
    rw [Mark.atop, hgone]
    rfl
  · have hmatched := s.matched_after
    have hlength : gs.length = gp.length := by
      have hmap := congrArg List.length hgp
      rw [List.length_map, List.length_zipWith, ← hcount, Nat.min_self, List.length_map] at hmap
      exact hmap.symm
    rw [hsplit, hpost] at hmatched
    have hdrop := List.forall₂_drop gs.length hmatched
    rwa [List.drop_left, hlength, List.drop_left] at hdrop
  · intro p hp
    cases qp with
    | nil => cases hp
    | cons q qp =>
      obtain rfl : q = p := Option.some.inj hp
      cases post with
      | nil => simp [KeywordSpacing.marksFrom] at hqp
      | cons v post =>
        cases qs with
        | nil => cases hqp
        | cons z qs => exact congrArg (·.spaced) (List.cons.inj hqp).1

end Words

section NewWords

variable {t : Text} (h : (parse t).faults = []) {lead : List Cell} {ws : List Word} {ps : List Patch} {tree : Tree}
  (hfix : Fixed t lead ws ps tree) (s : Survivor t ps tree) {pre post post' : List Word} {w w' : Word}
  (hws : ws = pre ++ w :: post) (hbefore : s.before.map cell = lead ++ flatten pre) (hhead : s.old.cell = w.head)
  (hafter : s.after.map cell = w.gap ++ flatten post) (hhead' : s.new.cell = w'.head)
  (hafter' : s.newAfter.map cell = w'.gap ++ flatten post')

include hhead hhead' in
theorem Survivor.head_new : w'.head.kind = w.head.kind ∧ w'.head.owner = w.head.owner := by
  rw [← hhead, ← hhead', s.kind_new, s.owner_new]
  exact ⟨rfl, rfl⟩

include hafter' in
theorem Survivor.gap_new : w'.gap.map (·.toToken) = (s.post.flatMap Patch.image).takeWhile (·.isTrivia) ∧
    (flatten post').map (·.toToken) = (s.post.flatMap Patch.image).dropWhile (·.isTrivia) := by
  have htokens := congrArg (List.map (·.toToken)) hafter'
  rw [map_token, s.tokens_after] at htokens
  rw [htokens, (takeWhile_gap w' post').1, (takeWhile_gap w' post').2]
  exact ⟨rfl, rfl⟩

include hfix

theorem Fixed.trivia_image {gs : List Zipper} {gp : List Patch} (hmatched : List.Forall₂ Matched gs gp)
    (hsub : ∀ p ∈ gp, p ∈ ps)
    (hgs : ∀ g ∈ gs, g.token.isTrivia = true) : ∀ u ∈ gp.flatMap Patch.image, u.isTrivia = true := by
  induction hmatched with
  | nil =>
    intro u hu
    cases hu
  | @cons g p gs gp hgp _ ih =>
    intro u hu
    rw [List.flatMap_cons, List.mem_append] at hu
    obtain hu | hu := hu
    · rw [Patch.image, List.mem_append] at hu
      obtain hu | hu := hu
      · exact Patch.isTrivia_lead u hu
      · split at hu
        · rename_i hgone
          exact hfix.filling.isTrivia p (hsub p List.mem_cons_self) hgone u hu
        · rw [List.mem_singleton.mp hu, hgp.1]
          exact hgs g List.mem_cons_self
    · exact ih (fun q hq => hsub q (List.mem_cons_of_mem _ hq)) (fun x hx => hgs x (List.mem_cons_of_mem _ hx)) u hu

theorem Survivor.next_of_stays {gs qs : List Zipper} {q : Zipper} (hsplit : s.after = gs ++ q :: qs)
    (hgs : ∀ g ∈ gs, g.token.isTrivia = true) (hq : q.token.isTrivia = false) (hstays : goes q.erase = false) :
    ∃ us, (s.post.flatMap Patch.image).dropWhile (·.isTrivia) = q.token :: us := by
  have hmatched := s.matched_after
  rw [hsplit] at hmatched
  obtain ⟨gp, p, qp, hpost, hgp, hqp, -⟩ := forall₂_split hmatched.flip
  have hsub : ∀ x ∈ gp, x ∈ ps := by
    intro x hx
    rw [s.patches, hpost]
    simp [hx]
  have htrivia := hfix.trivia_image hgp.flip hsub hgs
  have hgone : p.gone = none := by
    have hsome := hqp.2 hq
    rwa [hstays, Option.isSome_eq_false_iff, Option.isNone_iff_eq_none] at hsome
  have himage : p.image = p.lead ++ [q.token] := by
    rw [Patch.image, hgone, hqp.1]
    rfl
  rw [hpost, List.flatMap_append, List.flatMap_cons, himage, List.dropWhile_append_of_pos htrivia, List.append_assoc,
    List.dropWhile_append_of_pos Patch.isTrivia_lead, List.singleton_append,
    List.dropWhile_cons_of_neg (by simp [hq])]
  exact ⟨_, rfl⟩

include h

theorem Survivor.next_of_opening {gs qs : List Zipper} {q : Zipper} (hsplit : s.after = gs ++ q :: qs)
    (hgs : ∀ g ∈ gs, g.token.isTrivia = true) (hq : q.token.isTrivia = false) (hgoes : goes q.erase = true)
    (hopen : q.cell.trait = (.lParen, true)) {us : List Token} {u : Token} (hu : u.kind ∈ closing) :
    (s.post.flatMap Patch.image).dropWhile (·.isTrivia) ≠ u :: us := by
  intro hdrop
  have husig : u.isTrivia = false := by
    have hall : ∀ k ∈ closing, k.isTrivia = false := by decide
    exact hall _ hu
  have himage := (List.takeWhile_append_dropWhile (p := fun x : Token => x.isTrivia)
    (l := s.post.flatMap Patch.image)).symm
  rw [hdrop] at himage
  have hfill : Patch.Filling (some s.patch.token) s.post := by
    have hall := hfix.filling
    rw [s.patches] at hall
    exact hall.drop
  obtain ⟨pp, p, rest, hpost, hgone, htoken, hlead, -⟩ := hfill.exists_patch husig himage
  have hmatched := s.matched_after
  rw [hpost] at hmatched
  obtain ⟨mid, y, rs, hafter, hmid, hyp, -⟩ := forall₂_split hmatched
  have hy : y.token = u := by rw [← hyp.1, htoken]
  -- All significant leaves before it go, since what became of them is trivia.
  have hall : ∀ x ∈ mid, x.token.isTrivia = false → goes x.erase = true := by
    have htrivia : ∀ v ∈ pp.flatMap Patch.image, v.isTrivia = true := by
      intro v hv
      refine List.mem_takeWhile_imp (p := fun x : Token => x.isTrivia) (l := s.post.flatMap Patch.image) ?_
      rw [hlead]
      exact List.mem_append_left _ hv
    clear hlead hpost hmatched hafter
    induction hmid with
    | nil =>
      intro x hx
      cases hx
    | @cons z r zs rs hzr _ ih =>
      intro x hx hsig
      rw [List.flatMap_cons] at htrivia
      obtain rfl | hx := List.mem_cons.mp hx
      · rw [← hzr.2 hsig]
        by_contra hstays
        have hmem : x.token ∈ r.image := by
          rw [Patch.image, if_neg hstays, hzr.1]
          simp
        rw [htrivia _ (List.mem_append_left _ hmem)] at hsig
        cases hsig
      · exact ih (fun v hv => htrivia v (List.mem_append_right _ hv)) x hx hsig
  have hstays : goes y.erase = false := by
    rw [← hyp.2 (by rw [hy]; exact husig), hgone]
    rfl
  -- The opening parenthesis is among them.
  obtain ⟨mid', rfl⟩ : ∃ mid', mid = gs ++ q :: mid' := by
    obtain ⟨as, has, hrest⟩ | ⟨as, has, hrest⟩ := List.append_eq_append_iff.mp (hsplit.symm.trans hafter)
    · cases as with
      | nil =>
        obtain ⟨rfl, -⟩ := List.cons.inj hrest
        rw [hgoes] at hstays
        cases hstays
      | cons a as =>
        obtain ⟨rfl, -⟩ := List.cons.inj hrest
        exact ⟨as, has⟩
    · cases as with
      | nil =>
        obtain ⟨rfl, -⟩ := List.cons.inj hrest
        rw [hgoes] at hstays
        cases hstays
      | cons a as =>
        obtain ⟨rfl, -⟩ := List.cons.inj hrest
        have hytrivia := hgs y (by rw [has]; simp)
        rw [hy, husig] at hytrivia
        cases hytrivia
  have hleaves : leaves (parse t).tree = (s.before ++ s.old :: gs) ++ q :: ([] ++ mid' ++ y :: rs) := by
    rw [s.leaves_old, hafter]
    simp
  refine kind_after_opening h hleaves hopen (by simp)
    (fun x hx => hall x (by simp [hx])) (by rw [hy]; exact husig) ?_
  rw [show y.cell.kind = y.token.kind from rfl, hy]
  exact hu

include hhead hafter hhead' hafter'

theorem Survivor.spacing_new :
    (KeywordSpacing.spacingOf? w' post' = KeywordSpacing.spacingOf? w post ∧
      ∀ (gs : List Zipper) (q : Zipper) (qs : List Zipper), s.after = gs ++ q :: qs → gs.map cell = w.gap →
        goes q.erase = false) ∨
    (KeywordSpacing.spacingOf? w post = some .required ∧ KeywordSpacing.spacingOf? w' post' ≠ some .disallowed) ∨
    KeywordSpacing.spacingOf? w' post' = none := by
  obtain ⟨hkind, howner⟩ := s.head_new hhead hhead'
  have hnew := (s.gap_new hafter').2
  by_cases hkey : w.head.kind ∈ KeywordSpacing.kinds
  swap
  · exact .inr (.inr (if_neg (by rwa [hkind])))
  obtain ⟨gs, qs, hsplit, hgs, hqs⟩ := List.map_eq_append_iff.mp hafter
  have htrivia : ∀ g ∈ gs, g.token.isTrivia = true := by
    intro g hg
    exact w.gap_trivia g.cell (by rw [← hgs]; exact List.mem_map_of_mem hg)
  rw [KeywordSpacing.spacingOf?, KeywordSpacing.spacingOf?, if_pos hkey, if_pos (by rwa [hkind]), hkind, howner]
  cases post with
  | nil =>
    obtain rfl : qs = [] := List.map_eq_nil_iff.mp hqs
    rw [List.append_nil] at hsplit
    have hall := hfix.trivia_image s.matched_after (by intro p hp; rw [s.patches]; simp [hp]) (by rwa [hsplit])
    rw [List.dropWhile_eq_nil_iff.mpr hall, List.map_eq_nil_iff] at hnew
    obtain rfl : post' = [] := by
      cases post' with
      | nil => rfl
      | cons v vs => cases hnew
    refine .inl ⟨rfl, fun gs' q qs' hsplit' hgs' => ?_⟩
    have hlength := congrArg List.length (hgs'.trans hgs.symm)
    rw [← hsplit, hsplit', List.length_map, List.length_map, List.length_append, List.length_cons] at hlength
    omega
  | cons v post =>
    obtain ⟨q, qs, rfl, hq, -⟩ := List.map_eq_cons_iff.mp hqs
    have hqsig : q.token.isTrivia = false := by
      rw [show q.token.isTrivia = q.cell.isTrivia from rfl, hq]
      exact v.head_significant
    have hqleaf : q ∈ leaves (parse t).tree := by rw [s.leaves_old, hsplit]; simp
    have hold : s.old ∈ leaves (parse t).tree := by rw [s.leaves_old]; simp
    have hrank : q.rank = s.old.rank + 1 := by
      obtain ⟨ds, hds⟩ : ∃ ds, (parse t).tree = .node .compilationUnit ds := ⟨_, rfl⟩
      have hleaves := s.leaves_old
      rw [hsplit, hds] at hleaves
      exact rank_succ hleaves s.significant htrivia
    cases hgoes : goes q.erase with
    | false =>
      obtain ⟨us, hus⟩ := s.next_of_stays hfix hsplit htrivia hqsig hgoes
      rw [hus] at hnew
      have hnext : post'.head?.map (·.head.kind) = some v.head.kind := by
        cases post' with
        | nil => cases hnew
        | cons v' post' =>
          have htoken : v'.head.toToken = q.token := (List.cons.inj hnew).1
          rw [List.head?_cons, Option.map_some, htoken, ← hq]
          rfl
      refine .inl ⟨by rw [hnext]; rfl, fun gs' q' qs' hsplit' hgs' => ?_⟩
      have hlength : gs'.length = gs.length := by simpa using congrArg List.length (hgs'.trans hgs.symm)
      obtain ⟨-, hcons⟩ := List.append_inj (hsplit'.symm.trans hsplit) hlength
      rw [(List.cons.inj hcons).1, hgoes]
    | true =>
      obtain htrait | htrait := trait_of_goes h hqleaf hqsig hgoes
      · refine .inr (.inl ?_)
        have hcall : w.head.kind ∉ callers := by
          intro hmem
          have hbar := mayMeet_of_rank h hold hqleaf s.significant hqsig hrank .call
          rw [htrait, hhead] at hbar
          exact absurd (hbar (by simpa [Bar.raisedBy, Cell.trait] using hmem)) (by decide)
        have hnext : post'.head?.map (·.head.kind) ≠ some .semicolon := by
          intro hsemi
          cases post' with
          | nil => cases hsemi
          | cons v' post' =>
            refine s.next_of_opening h hfix hsplit htrivia hqsig hgoes htrait (u := v'.head.toToken) ?_ hnew.symm
            rw [show v'.head.kind = .semicolon from Option.some.inj hsemi]
            decide
        have hparen : v.head.kind = .lParen := by
          rw [← hq]
          exact congrArg (·.1) htrait
        have hspacing := spacing?_of_not_mem_callers hkey hcall w.head.owner hnext
        rw [List.head?_cons, Option.map_some, hparen]
        exact hspacing
      · refine .inr (.inr ?_)
        obtain ⟨hdefault, hno⟩ := default_of_closing h hold hqleaf s.significant hqsig hrank (by rwa [hhead]) htrait
        rw [hhead] at hdefault hno
        simp [KeywordSpacing.spacing?, hdefault, hno]

include hws hbefore

omit hhead' in
theorem Survivor.blank_new (hspacing : KeywordSpacing.spacingOf? w post = some .required)
    (hsome : w.gap ++ flatten post ≠ []) : w'.gap.any (·.isBlank) = true := by
  have hgap := (s.gap_new hafter').1
  have hblank {d : Cell} (hd : d.toToken ∈ w'.gap.map (·.toToken)) (hb : d.isBlank = true) :
    w'.gap.any (·.isBlank) = true := by
    obtain ⟨c, hc, heq⟩ := List.mem_map.mp hd
    refine List.any_eq_true.mpr ⟨c, hc, ?_⟩
    rw [Cell.isBlank, heq]
    exact hb
  by_cases hpad : KeywordSpacing.ruling w post = .pad
  · obtain ⟨us, hus⟩ := s.space_after hfix hws hbefore hafter hpad
    rw [← s.tokens_after, hus, List.takeWhile_cons_of_pos rfl] at hgap
    exact hblank (d := .space .error) (by rw [hgap]; exact List.mem_cons_self) rfl
  · obtain ⟨gs, qs, gp, qp, hsplit, hgs, -, hpost, hgp, -⟩ :=
      s.exists_gap h hfix hws hbefore hafter hhead (by simp [hspacing]) hpad
    have hany : w.gap.any (·.isBlank) = true := by
      by_contra hno
      rw [Bool.not_eq_true] at hno
      refine hpad ?_
      rw [KeywordSpacing.ruling, hspacing]
      simp only [hno, Bool.false_or]
      rw [if_neg]
      rw [Bool.and_eq_true, List.isEmpty_iff, List.isEmpty_iff]
      rintro ⟨hgap, rfl⟩
      exact hsome (by rw [hgap]; rfl)
    have hclear : KeywordSpacing.ruling w post ≠ .clear := by
      rw [KeywordSpacing.ruling, hspacing]
      simp only [hany, Bool.true_or, if_true]
      decide
    rw [if_neg hclear] at hgp
    rw [hpost, List.flatMap_append, Patch.flatMap_image_plain hgp, List.takeWhile_append_of_pos w.trivia_gap] at hgap
    obtain ⟨c, hc, hb⟩ := List.any_eq_true.mp hany
    exact hblank (by rw [hgap]; exact List.mem_append_left _ (List.mem_map_of_mem hc)) hb

omit hhead' in
theorem Survivor.ruling_required (hspacing : KeywordSpacing.spacingOf? w post = some .required)
    (hspacing' : KeywordSpacing.spacingOf? w' post' = some .required) : KeywordSpacing.ruling w' post' = .fine := by
  rw [KeywordSpacing.ruling, hspacing']
  by_cases hsome : w.gap ++ flatten post = []
  · rw [hsome, List.map_eq_nil_iff] at hafter
    have hmatched := s.matched_after
    rw [hafter, List.forall₂_nil_left_iff] at hmatched
    have hempty := s.tokens_after
    rw [hmatched, List.flatMap_nil, List.map_eq_nil_iff] at hempty
    rw [hempty, List.map_nil, eq_comm, List.append_eq_nil_iff] at hafter'
    obtain rfl : post' = [] := by
      cases post' with
      | nil => rfl
      | cons v vs => cases hafter'.2
    simp [hafter'.1]
  · simp [s.blank_new h hfix hws hbefore hhead hafter hafter' hspacing hsome]

variable (hlead : ∀ c ∈ lead, c.isTrivia = true) (hcells : (parse t).tree.cells .compilationUnit = lead ++ flatten ws)

include hlead hcells

omit hhead' in
theorem Survivor.gap_disallowed (hspacing : KeywordSpacing.spacingOf? w post = some .disallowed)
    (hstays : ∀ (gs : List Zipper) (q : Zipper) (qs : List Zipper), s.after = gs ++ q :: qs → gs.map cell = w.gap →
      goes q.erase = false) :
    w'.gap.map (·.toToken) = if KeywordSpacing.ruling w post = .clear then (w.gap.filter (!·.isBlank)).map (·.toToken)
      else w.gap.map (·.toToken) := by
  have hpad : KeywordSpacing.ruling w post ≠ .pad := by
    rw [KeywordSpacing.ruling, hspacing]
    simp only
    split
    · decide
    · split <;> decide
  obtain ⟨gs, qs, gp, qp, hsplit, hgs, hqs, hpost, hgp, hmatched, hspaced⟩ :=
    s.exists_gap h hfix hws hbefore hafter hhead (by simp [hspacing]) hpad
  -- The next word stays, so the gap ends with what became of the old one.
  have hnext : ∀ u ∈ (qp.flatMap Patch.image).head?, ∃ v ∈ post.head?, u = v.head.toToken := by
    intro u hu
    cases hmatched with
    | nil => cases hu
    | @cons q p qs qp hqp _ =>
      cases post with
      | nil => cases hqs
      | cons v post =>
        have hq : q.cell = v.head := (List.cons.inj hqs).1
        have hqsig : q.token.isTrivia = false := by
          rw [show q.token.isTrivia = q.cell.isTrivia from rfl, hq]
          exact v.head_significant
        have hgone : p.gone = none := by
          have hsome := hqp.2 hqsig
          rwa [hstays gs q qs hsplit hgs, Option.isSome_eq_false_iff, Option.isNone_iff_eq_none] at hsome
        have himage : p.image = [q.token] := by
          rw [Patch.image, Patch.lead, hspaced p rfl, hgone, hqp.1]
          rfl
        rw [List.flatMap_cons, himage, List.singleton_append, List.head?_cons] at hu
        refine ⟨v, rfl, ?_⟩
        rw [← Option.some.inj hu, ← hq]
        rfl
  have hend : (qp.flatMap Patch.image).takeWhile (·.isTrivia) = [] := by
    cases himage : qp.flatMap Patch.image with
    | nil => rfl
    | cons u us =>
      rw [himage] at hnext
      obtain ⟨v, -, rfl⟩ := hnext u rfl
      exact List.takeWhile_cons_of_neg (by simp [v.head_significant])
  have hgap := (s.gap_new hafter').1
  rw [hpost, List.flatMap_append] at hgap
  split
  · rename_i hclear
    rw [if_pos hclear] at hgp
    have hfill := hfix.filling
    rw [s.patches, hpost] at hfill
    have hclearable := KeywordSpacing.clearable_of_signed (KeywordSpacing.spelled_of_faultless h hcells)
      (KeywordSpacing.signed_of_faultless h hlead hcells)
    rw [hws] at hclearable
    have himage := hfill.drop.flatMap_image_cleared hgp w.gap_trivia (by
      intro l hl _ u hu
      obtain rfl : s.patch.token = l := Option.some.inj hl
      obtain ⟨v, hv, rfl⟩ := hnext u hu
      rw [s.matched.1, show s.old.token.text = s.old.cell.text from rfl, hhead]
      exact hclearable.staysApart hclear v hv)
    have htrivia : ∀ u ∈ (w.gap.filter (!·.isBlank)).map (·.toToken), u.isTrivia = true := by
      intro u hu
      obtain ⟨c, hc, rfl⟩ := List.mem_map.mp hu
      exact w.gap_trivia c (List.mem_filter.mp hc).1
    rw [hgap, himage, List.takeWhile_append_of_pos htrivia, hend, List.append_nil]
  · rename_i hclear
    rw [if_neg hclear] at hgp
    rw [hgap, Patch.flatMap_image_plain hgp, List.takeWhile_append_of_pos w.trivia_gap, hend, List.append_nil]

theorem Survivor.ruling_new : KeywordSpacing.ruling w' post' = .fine ∨
    KeywordSpacing.ruling w' post' = .decline ∧ KeywordSpacing.ruling w post = .decline := by
  obtain ⟨hsame, hstays⟩ | ⟨hrequired, hallowed⟩ | hnone := s.spacing_new h hfix hhead hafter hhead' hafter'
  · cases hspacing : KeywordSpacing.spacingOf? w post with
    | none => exact .inl (by rw [KeywordSpacing.ruling, hsame, hspacing])
    | some spacing =>
      cases spacing with
      | required =>
        exact .inl (s.ruling_required h hfix hws hbefore hhead hafter hafter' hspacing (hsame.trans hspacing))
      | disallowed =>
        have hgap := s.gap_disallowed h hfix hws hbefore hhead hafter hafter' hlead hcells hspacing hstays
        have hnew := hsame.trans hspacing
        split at hgap
        · have hnone : (w.gap.filter (!·.isBlank)).any (·.isBlank) = false :=
            List.any_eq_false.mpr fun c hc => by simpa using (List.mem_filter.mp hc).2
          have hblank : w'.gap.any (·.isBlank) = false :=
            (Cell.any_congr Cell.isBlank_congr hgap).trans hnone
          exact .inl (by rw [KeywordSpacing.ruling, hnew, hblank]; rfl)
        · rename_i hclear
          have hblank : w'.gap.any (·.isBlank) = w.gap.any (·.isBlank) :=
            Cell.any_congr Cell.isBlank_congr hgap
          have hbarrier : w'.gap.any (·.isBarrier) = w.gap.any (·.isBarrier) :=
            Cell.any_congr Cell.isBarrier_congr hgap
          have hruling : KeywordSpacing.ruling w' post' = KeywordSpacing.ruling w post := by
            rw [KeywordSpacing.ruling, KeywordSpacing.ruling, hnew, hspacing, hblank, hbarrier]
          have hcases : KeywordSpacing.ruling w post = .fine ∨ KeywordSpacing.ruling w post = .decline := by
            rw [KeywordSpacing.ruling, hspacing] at hclear ⊢
            simp only at hclear ⊢
            split
            · exact .inl rfl
            · rename_i hno
              split
              · exact .inr rfl
              · rename_i hfree
                rw [if_neg hno, if_neg hfree] at hclear
                exact absurd rfl hclear
          rw [hruling]
          exact hcases.imp_right fun hr => ⟨hr, hr⟩
  · cases hspacing : KeywordSpacing.spacingOf? w' post' with
    | none => exact .inl (by rw [KeywordSpacing.ruling, hspacing])
    | some spacing =>
      cases spacing with
      | required => exact .inl (s.ruling_required h hfix hws hbefore hhead hafter hafter' hrequired hspacing)
      | disallowed => exact absurd hspacing hallowed
  · exact .inl (by rw [KeywordSpacing.ruling, hnone])

end NewWords

end Parentheses

end Lintel
