import Lintel.Proofs.Surgery
import Mathlib.Data.List.Induction

namespace Lintel

namespace Tree

inductive Run : List Tree → Nat → List Tree → Prop
  | here (l ts r : List Tree) : Run (l ++ ts ++ r) (sizeAll l) ts
  | inside (l : List Tree) (k : Kind) (r : List Tree) {cs : List Tree} {n : Nat} {ts : List Tree}
      (h : Run cs n ts) : Run (l ++ .node k cs :: r) (sizeAll l + n) ts

structure Firm (ts : List Tree) : Prop where
  head : ∃ (t : Tree) (us : List Tree), ts = t :: us ∧ 0 < t.size
  last : ∃ (us : List Tree) (t : Tree), ts = us ++ [t] ∧ 0 < t.size

theorem Firm.singleton {t : Tree} (h : 0 < t.size) : Firm [t] :=
  ⟨⟨t, [], rfl, h⟩, ⟨[], t, rfl, h⟩⟩

theorem Firm.pos {ts : List Tree} (h : Firm ts) : 0 < sizeAll ts := by
  obtain ⟨t, us, rfl, ht⟩ := h.head
  rw [sizeAll_cons]
  omega

theorem exists_firm {ts : List Tree} (h : 0 < sizeAll ts) :
    ∃ l us r, ts = l ++ us ++ r ∧ sizeAll l = 0 ∧ sizeAll r = 0 ∧ Firm us := by
  have hhead : ∃ (l : List Tree) (t : Tree) (us : List Tree), ts = l ++ t :: us ∧ sizeAll l = 0 ∧ 0 < t.size := by
    induction ts with
    | nil => simp at h
    | cons t ts ih =>
      by_cases ht : t.size = 0
      · obtain ⟨l, u, us, rfl, hl, hu⟩ := ih (by simpa [ht] using h)
        exact ⟨t :: l, u, us, rfl, by simp [ht, hl], hu⟩
      · exact ⟨[], t, ts, rfl, rfl, by omega⟩
  obtain ⟨l, t, us, rfl, hl, ht⟩ := hhead
  have hlast : ∃ (vs : List Tree) (u : Tree) (r : List Tree), t :: us = vs ++ [u] ++ r ∧ sizeAll r = 0 ∧
    0 < u.size := by
    induction us using List.reverseRecOn with
    | nil => exact ⟨[], t, [], rfl, rfl, ht⟩
    | append_singleton us u ih =>
      by_cases hu : u.size = 0
      · obtain ⟨vs, v, r, hv, hr, hpos⟩ := ih (by rw [sizeAll_append, sizeAll_cons]; omega)
        exact ⟨vs, v, r ++ [u], by rw [← List.cons_append, hv]; simp, by simp [hr, hu], hpos⟩
      · exact ⟨t :: us, u, [], by simp, rfl, by omega⟩
  obtain ⟨vs, u, r, hv, hr, hu⟩ := hlast
  refine ⟨l, vs ++ [u], r, by rw [hv, List.append_assoc l], hl, hr, ?_, ⟨vs, u, rfl, hu⟩⟩
  cases vs with
  | nil =>
    obtain ⟨rfl, -⟩ := List.cons.inj hv
    exact ⟨t, [], rfl, ht⟩
  | cons v vs =>
    obtain ⟨rfl, -⟩ := List.cons.inj hv
    exact ⟨t, vs ++ [u], rfl, ht⟩

namespace Run

theorem elim {f ts : List Tree} {n : Nat} (h : Run f n ts) :
    (∃ l r, f = l ++ ts ++ r ∧ n = sizeAll l) ∨
      ∃ l k cs r m, f = l ++ node k cs :: r ∧ n = sizeAll l + m ∧ Run cs m ts := by
  cases h with
  | here l ts r => exact Or.inl ⟨l, r, rfl, rfl⟩
  | inside l k r h => exact Or.inr ⟨l, k, _, r, _, rfl, rfl, h⟩

theorem bound {f ts : List Tree} {n : Nat} (h : Run f n ts) : n + sizeAll ts ≤ sizeAll f := by
  induction h with
  | here l ts r =>
    simp only [sizeAll_append]
    omega
  | inside l k r h ih =>
    simp only [sizeAll_append, sizeAll_cons, size_node]
    omega

theorem append {f ts : List Tree} {n : Nat} (h : Run f n ts) (a b : List Tree) :
    Run (a ++ f ++ b) (sizeAll a + n) ts := by
  cases h with
  | here l ts r =>
    have hrun := here (a ++ l) ts (r ++ b)
    simpa [sizeAll_append] using hrun
  | inside l k r h =>
    have hrun := inside (a ++ l) k (r ++ b) h
    simpa [sizeAll_append, Nat.add_assoc] using hrun

theorem sub {f a b c : List Tree} {n : Nat} (h : Run f n (a ++ b ++ c)) : Run f (n + sizeAll a) b := by
  generalize hall : a ++ b ++ c = all at h
  induction h with
  | here l ts r =>
    subst hall
    have hrun := here (l ++ a) b (c ++ r)
    simpa [sizeAll_append] using hrun
  | inside l k r h ih =>
    rw [Nat.add_assoc]
    exact inside l k r (ih hall)

theorem beside {l r ts : List Tree} {c : Tree} {n : Nat} (h : Run (l ++ c :: r) n ts) :
    Run l n ts ∨ (∃ m, Run r m ts ∧ n = sizeAll l + c.size + m) ∨
      (∃ k cs m, c = node k cs ∧ Run cs m ts ∧ n = sizeAll l + m) ∨
      (n ≤ sizeAll l ∧ sizeAll l + c.size ≤ n + sizeAll ts) := by
  obtain ⟨l', r', hf, rfl⟩ | ⟨l', k, cs, r', m, hf, rfl, hrun⟩ := h.elim
  · rw [List.append_assoc] at hf
    obtain ⟨a, rfl, ha⟩ | ⟨a, rfl, ha⟩ := List.append_eq_append_iff.mp hf
    · cases a with
      | nil =>
        -- The run starts at the element, or it is empty and stands before it.
        rw [List.nil_append] at ha
        cases ts with
        | nil => exact Or.inl (by simpa using here l [] [])
        | cons t ts =>
          rw [List.cons_append] at ha
          obtain ⟨rfl, rfl⟩ := List.cons.inj ha
          right; right; right
          simp only [List.append_nil, sizeAll_cons]
          omega
      | cons d a =>
        obtain ⟨rfl, rfl⟩ := List.cons.inj ha
        right; left
        refine ⟨sizeAll a, by simpa using here a ts r', ?_⟩
        simp only [sizeAll_append, sizeAll_cons]
        omega
    · obtain ⟨b, rfl, hb⟩ | ⟨b, rfl, hb⟩ := List.append_eq_append_iff.mp ha
      · exact Or.inl (by simpa using here l' ts b)
      · cases b with
        | nil => exact Or.inl (by simpa using here l' a [])
        | cons d b =>
          obtain ⟨rfl, rfl⟩ := List.cons.inj hb
          right; right; right
          simp only [sizeAll_append, sizeAll_cons]
          omega
  · obtain ⟨a, rfl, ha⟩ | ⟨a, rfl, ha⟩ := List.append_eq_append_iff.mp hf
    · cases a with
      | nil =>
        obtain ⟨rfl, rfl⟩ := List.cons.inj ha
        right; right; left
        exact ⟨k, cs, m, rfl, hrun, by simp⟩
      | cons d a =>
        obtain ⟨rfl, rfl⟩ := List.cons.inj ha
        right; left
        refine ⟨sizeAll a + m, inside a k r' hrun, ?_⟩
        simp only [sizeAll_append, sizeAll_cons]
        omega
    · cases a with
      | nil =>
        obtain ⟨rfl, rfl⟩ := List.cons.inj ha
        right; right; left
        exact ⟨k, cs, m, rfl, hrun, by simp⟩
      | cons d a =>
        obtain ⟨rfl, rfl⟩ := List.cons.inj ha
        exact Or.inl (inside l' k a hrun)

theorem left {l r ts : List Tree} {n : Nat} (h : Run (l ++ r) n ts) (hts : Firm ts)
    (hle : n + sizeAll ts ≤ sizeAll l) : Run l n ts := by
  have hpos := hts.pos
  obtain ⟨l', r', hf, rfl⟩ | ⟨l', k, cs, r', m, hf, rfl, hrun⟩ := h.elim
  · obtain ⟨a, ha, -⟩ | ⟨a, rfl, -⟩ := List.append_eq_append_iff.mp hf
    · -- The run would end with elements that have no text.
      obtain ⟨us, t, rfl, ht⟩ := hts.last
      obtain rfl | ⟨b, u, rfl⟩ := a.eq_nil_or_concat
      · rw [List.append_nil] at ha
        simpa [← ha] using here l' (us ++ [t]) []
      · rw [List.concat_eq_append, ← List.append_assoc, ← List.append_assoc] at ha
        obtain ⟨hb, hu⟩ := List.append_inj' ha rfl
        have hsize := congrArg sizeAll hb
        simp only [sizeAll_append, sizeAll_cons, sizeAll_nil] at hle hsize
        omega
    · exact here l' ts a
  · obtain ⟨a, rfl, -⟩ | ⟨a, rfl, ha⟩ := List.append_eq_append_iff.mp hf
    · rw [sizeAll_append] at hle
      omega
    · cases a with
      | nil =>
        rw [List.append_nil] at hle
        omega
      | cons d a =>
        obtain ⟨rfl, rfl⟩ := List.cons.inj ha
        exact inside l' k a hrun

theorem right {l r ts : List Tree} {n : Nat} (h : Run (l ++ r) n ts) (hts : Firm ts) (hle : sizeAll l ≤ n) :
    ∃ m, Run r m ts ∧ n = sizeAll l + m := by
  have hpos := hts.pos
  obtain ⟨l', r', hf, rfl⟩ | ⟨l', k, cs, r', m, hf, rfl, hrun⟩ := h.elim
  · rw [List.append_assoc] at hf
    obtain ⟨a, rfl, ha⟩ | ⟨a, rfl, ha⟩ := List.append_eq_append_iff.mp hf
    · exact ⟨sizeAll a, by simpa [ha] using here a ts r', by simp⟩
    · cases a with
      | nil =>
        rw [List.nil_append] at ha
        exact ⟨0, by simpa [ha] using here [] ts r', by simp⟩
      | cons d a =>
        obtain ⟨t, us, rfl, ht⟩ := hts.head
        obtain ⟨rfl, -⟩ := List.cons.inj ha
        simp only [sizeAll_append, sizeAll_cons] at hle
        omega
  · have hbound := hrun.bound
    obtain ⟨a, rfl, ha⟩ | ⟨a, rfl, ha⟩ := List.append_eq_append_iff.mp hf
    · refine ⟨sizeAll a + m, ?_, by rw [sizeAll_append]; omega⟩
      rw [ha]
      exact inside a k r' hrun
    · cases a with
      | nil =>
        rw [List.nil_append] at ha
        rw [← ha]
        exact ⟨m, by simpa using inside [] k r' hrun, by simp⟩
      | cons d a =>
        obtain ⟨rfl, rfl⟩ := List.cons.inj ha
        simp only [sizeAll_append, sizeAll_cons, size_node] at hle
        omega

theorem token_whole {f ts : List Tree} {n m : Nat} {k : Kind} {x : Text} (h : Run f m [token k x])
    (hrun : Run f n ts) : n + sizeAll ts ≤ m ∨ m + x.size ≤ n + sizeAll ts := by
  generalize hone : [token k x] = one at h
  induction h generalizing n with
  | here l us r =>
    subst hone
    rw [List.append_assoc, List.singleton_append] at hrun
    obtain h | ⟨i, h, rfl⟩ | ⟨_, _, _, h, -, -⟩ | ⟨-, h⟩ := hrun.beside
    · exact Or.inl h.bound
    · right
      rw [size_token]
      omega
    · cases h
    · exact Or.inr h
  | @inside l k' r cs j us h ih =>
    subst hone
    have hj := h.bound
    rw [sizeAll_cons, sizeAll_nil, size_token] at hj
    obtain h | ⟨i, h, rfl⟩ | ⟨_, _, i, h, hi, rfl⟩ | ⟨-, h⟩ := hrun.beside
    · left
      have := h.bound
      omega
    · right
      rw [size_node]
      omega
    · cases h
      obtain h | h := ih hi rfl
      · left
        omega
      · right
        omega
    · right
      rw [size_node] at h
      omega

end Run

/-- One forest is another with a run of elements replaced; the node around it may dissolve. -/
inductive Swap (gone ins : List Tree) : List Tree → Nat → List Tree → Prop
  | here (l r : List Tree) : Swap gone ins (l ++ gone ++ r) (sizeAll l) (l ++ ins ++ r)
  | inside (l : List Tree) (k : Kind) (r : List Tree) {cs cs' : List Tree} {n : Nat} (h : Swap gone ins cs n cs') :
      Swap gone ins (l ++ .node k cs :: r) (sizeAll l + n) (l ++ .node k cs' :: r)
  | dissolve (l : List Tree) (k : Kind) (r l' r' : List Tree) :
      Swap gone ins (l ++ .node k (l' ++ gone ++ r') :: r) (sizeAll l + sizeAll l') (l ++ (l' ++ ins ++ r') ++ r)

namespace Swap

variable {gone ins f f' : List Tree} {m : Nat}

theorem run_gone (h : Swap gone ins f m f') : Run f m gone := by
  induction h with
  | here l r => exact .here l gone r
  | inside l k r h ih => exact .inside l k r ih
  | dissolve l k r l' r' => exact .inside l k r (.here l' gone r')

theorem run_ins (h : Swap gone ins f m f') : Run f' m ins := by
  induction h with
  | here l r => exact .here l ins r
  | inside l k r h ih => exact .inside l k r ih
  | dissolve l k r l' r' => exact (Run.here l' ins r').append l r

theorem append (h : Swap gone ins f m f') (a b : List Tree) :
    Swap gone ins (a ++ f ++ b) (sizeAll a + m) (a ++ f' ++ b) := by
  cases h with
  | here l r =>
    have hswap := @here gone ins (a ++ l) (r ++ b)
    simpa [sizeAll_append] using hswap
  | inside l k r h =>
    have hswap := inside (a ++ l) k (r ++ b) h
    simpa [sizeAll_append, Nat.add_assoc] using hswap
  | dissolve l k r l' r' =>
    have hswap := @dissolve gone ins (a ++ l) k (r ++ b) l' r'
    simpa [sizeAll_append, Nat.add_assoc] using hswap

theorem run_before {ts : List Tree} {n : Nat} (h : Swap gone ins f m f') (hgone : 0 < sizeAll gone) (hts : Firm ts)
    (hrun : Run f n ts) (hle : n + sizeAll ts ≤ m) : Run f' n ts := by
  have hpos := hts.pos
  induction h generalizing n with
  | here l r =>
    rw [List.append_assoc] at hrun
    simpa using (hrun.left hts hle).append [] (ins ++ r)
  | @inside l k r cs cs' j h ih =>
    have hj := h.run_gone.bound
    obtain h | ⟨i, h, rfl⟩ | ⟨_, _, i, h, hi, rfl⟩ | ⟨-, h⟩ := hrun.beside
    · simpa using h.append [] (node k cs' :: r)
    · rw [size_node] at hle
      omega
    · cases h
      exact .inside l k r (ih hi (by omega))
    · rw [size_node] at h
      omega
  | dissolve l k r l' r' =>
    obtain h | ⟨i, h, rfl⟩ | ⟨_, _, i, h, hi, rfl⟩ | ⟨-, h⟩ := hrun.beside
    · simpa using h.append [] (l' ++ ins ++ r' ++ r)
    · simp only [size_node, sizeAll_append] at hle
      omega
    · cases h
      rw [List.append_assoc l'] at hi
      simpa using (hi.left hts (by omega)).append l (ins ++ r' ++ r)
    · simp only [size_node, sizeAll_append] at h
      omega

theorem sizeAll_eq (h : Swap gone ins f m f') : sizeAll f' + sizeAll gone = sizeAll f + sizeAll ins := by
  induction h with
  | here l r =>
    simp only [sizeAll_append]
    omega
  | inside l k r h ih =>
    simp only [sizeAll_append, sizeAll_cons, size_node]
    omega
  | dissolve l k r l' r' =>
    simp only [sizeAll_append, sizeAll_cons, size_node]
    omega

theorem run_after {ts : List Tree} {n : Nat} (h : Swap gone ins f m f') (hgone : 0 < sizeAll gone) (hts : Firm ts)
    (hrun : Run f (m + sizeAll gone + n) ts) : Run f' (m + sizeAll ins + n) ts := by
  have hpos := hts.pos
  induction h generalizing n with
  | here l r =>
    obtain ⟨i, hi, heq⟩ := hrun.right hts (by rw [sizeAll_append]; omega)
    rw [sizeAll_append] at heq
    obtain rfl : n = i := by omega
    simpa using hi.append (l ++ ins) []
  | @inside l k r cs cs' j h ih =>
    have hsizes := h.sizeAll_eq
    obtain h | ⟨i, hi, heq⟩ | ⟨_, _, i, h, hi, heq⟩ | ⟨h, -⟩ := hrun.beside
    · have hbound := h.bound
      omega
    · have hrun := hi.append (l ++ [node k cs']) []
      rw [size_node] at heq
      simp only [sizeAll_append, sizeAll_cons, size_node, sizeAll_nil] at hrun
      convert hrun using 1
      · simp
      · omega
    · cases h
      obtain rfl : i = j + sizeAll gone + n := by omega
      have hrun := Run.inside l k r (ih hi)
      convert hrun using 1
      omega
    · omega
  | dissolve l k r l' r' =>
    obtain h | ⟨i, hi, heq⟩ | ⟨_, _, i, h, hi, heq⟩ | ⟨h, -⟩ := hrun.beside
    · have hbound := h.bound
      omega
    · have hrun := hi.append (l ++ (l' ++ ins ++ r')) []
      simp only [size_node, sizeAll_append] at heq
      simp only [sizeAll_append, List.append_nil] at hrun
      convert hrun using 1
      omega
    · cases h
      obtain ⟨j, hj, heq'⟩ := hi.right hts (by rw [sizeAll_append]; omega)
      have hrun := hj.append (l ++ (l' ++ ins)) r
      simp only [sizeAll_append] at heq' hrun
      convert hrun using 1
      · simp
      · omega
    · omega

end Swap

end Tree

end Lintel
