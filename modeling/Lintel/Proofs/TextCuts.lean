import Lintel.Text.Basic

namespace Lintel.Text

theorem size_eq_zero {t : Text} : t.size = 0 ↔ t = [] := by
  cases t with
  | nil => simp
  | cons c cs =>
    have hc := c.utf8Size_pos
    simp only [size_cons, reduceCtorEq, iff_false]
    omega

theorem exists_of_append_eq {a b x y : Text} (h : a ++ x = b ++ y) (hs : a.size ≤ b.size) :
    ∃ c, b = a ++ c ∧ x = c ++ y := by
  rcases List.append_eq_append_iff.mp h with ⟨c, hb, hx⟩ | ⟨c, ha, hy⟩
  · exact ⟨c, hb, hx⟩
  · have hc : c = [] := by
      rw [ha, size_append] at hs
      exact size_eq_zero.mp (by omega)
    subst hc
    exact ⟨[], by simpa using ha.symm, by simpa using hy.symm⟩

theorem append_inj_size {a b x y : Text} (h : a ++ x = b ++ y) (hs : a.size = b.size) : a = b ∧ x = y := by
  obtain ⟨c, rfl, rfl⟩ := exists_of_append_eq h (Nat.le_of_eq hs)
  have hc : c = [] := by
    rw [size_append] at hs
    exact size_eq_zero.mp (by omega)
  simp [hc]

theorem splitAt?_append (a r : Text) : splitAt? a.size (a ++ r) = some (a, r) := by
  induction a with
  | nil =>
    cases r with
    | nil => rfl
    | cons c r => rfl
  | cons c a ih =>
    obtain ⟨n, hn⟩ := Nat.exists_eq_succ_of_ne_zero (Nat.ne_of_gt c.utf8Size_pos)
    have hsize : size (c :: a) = n + size a + 1 := by
      rw [size_cons, hn]
      omega
    rw [hsize, List.cons_append, splitAt?, if_pos (by omega), show n + size a + 1 - c.utf8Size = size a by omega, ih]
    rfl

theorem dropBytes_append (a x : Text) : dropBytes a.size (a ++ x) = x := by
  induction a with
  | nil => simp [dropBytes]
  | cons c a ih =>
    have hc := c.utf8Size_pos
    obtain ⟨n, hn⟩ : ∃ n, c.utf8Size + size a = n + 1 := ⟨c.utf8Size + size a - 1, by omega⟩
    have ha : n + 1 - c.utf8Size = size a := by omega
    rw [size_cons, hn, List.cons_append, dropBytes, ha, ih]

theorem takeBytes_append (a x : Text) : takeBytes a.size (a ++ x) = a := by
  have h := takeBytes_append_dropBytes a.size (a ++ x)
  rw [dropBytes_append] at h
  exact List.append_cancel_right h

end Lintel.Text
