import Lintel.Proofs.ByteScanner
import Lintel.Proofs.LexemeSteps
import Lintel.Proofs.TextCuts

namespace Lintel

theorem Span.between_add (i n : Nat) : between i (i + n) = ⟨i, n⟩ := by
  rw [between, Nat.add_sub_cancel_left]

namespace Scanner

def At (t : Text) (i : Nat) (r : Text) : Prop :=
  ∃ a, a ++ r = t ∧ a.size = i

namespace At

variable {t r a : Text} {i : Nat} {c : Char}

theorem zero (t : Text) : At t 0 t :=
  ⟨[], rfl, rfl⟩

theorem append (h : At t i (a ++ r)) : At t (i + a.size) r := by
  obtain ⟨b, rfl, rfl⟩ := h
  exact ⟨b ++ a, List.append_assoc b a r, Text.size_append b a⟩

theorem cons (h : At t i (c :: r)) : At t (i + c.utf8Size) r :=
  append (a := [c]) h

theorem of_whole {k : Cut} (h : At t i r) (hk : k.Whole r) : At t (i + k.taken.size) k.rest := by
  rw [← hk] at h
  exact h.append

theorem size_eq (h : At t i r) : t.size = i + r.size := by
  obtain ⟨b, rfl, rfl⟩ := h
  exact Text.size_append b r

theorem length_lt (h : At t i r) : r.length < t.size + 1 := by
  have hsize : ∀ r : Text, r.length ≤ r.size := by
    intro r
    induction r with
    | nil => exact Nat.le_refl 0
    | cons c r ih =>
      have hpos := c.utf8Size_pos
      rw [List.length_cons, Text.size_cons]
      omega
  have hr := hsize r
  rw [h.size_eq]
  omega

theorem rest?_eq (h : At t i r) : rest? t i = some r := by
  obtain ⟨b, rfl, rfl⟩ := h
  rw [rest?, Text.splitAt?_append]
  rfl

theorem char?_eq (h : At t i r) : char? t i = some r.head? := by
  rw [char?, h.rest?_eq]
  rfl

theorem slice?_eq (h : At t i (a ++ r)) : slice? t i (i + a.size) = some a := by
  obtain ⟨b, rfl, rfl⟩ := h
  rw [slice?, if_pos (Nat.le_add_right _ _), Text.slice?, Text.splitAt?_append, Nat.add_sub_cancel_left]
  simp only [Option.bind_eq_bind, Option.bind_some, Text.splitAt?_append]
  rfl

end At

variable {t r u : Text} {i start n : Nat} {c : Char}

section Characters

theorem skipWhile_go_eq (p : Char → Bool) (h : At t i r) (hn : r.length < n) :
    skipWhile.go p t n i = some (i + Text.size (r.takeWhile p)) := by
  induction n generalizing r i with
  | zero => exact absurd hn (Nat.not_lt_zero _)
  | succ n ih =>
    rw [skipWhile.go, h.char?_eq]
    cases r with
    | nil => rfl
    | cons c r =>
      simp only [List.head?_cons, Option.bind_eq_bind, Option.bind_some, List.takeWhile_cons]
      split
      · rw [ih h.cons (Nat.lt_of_succ_lt_succ hn), Text.size_cons, Nat.add_assoc]
      · rfl

theorem skipWhile_eq (p : Char → Bool) (h : At t i r) : skipWhile p t i = some (i + Text.size (r.takeWhile p)) :=
  skipWhile_go_eq p h h.length_lt

theorem find?_cons_of_not {p : Text → Bool} (h : p (c :: r) = false) :
    find? p (c :: r) = (find? p r).map (c.utf8Size + ·) := by
  rw [find?, if_neg (by simp [h])]

theorem getD_find?_head (p : Char → Bool) (r : Text) :
    (find? (·.head?.any p) r).getD r.size = Text.size (r.takeWhile (!p ·)) := by
  induction r with
  | nil => rfl
  | cons c r ih =>
    cases hc : p c with
    | true => simp [find?, hc]
    | false =>
      rw [find?_cons_of_not hc, Text.size_cons, Option.getD_map, ih, List.takeWhile_cons, if_pos (by simp [hc]),
        Text.size_cons]

theorem lineEnd_eq (h : At t i r) : lineEnd t i = some (i + (Literal.restOfLine r).taken.size) := by
  rw [lineEnd, h.rest?_eq, h.size_eq]
  simp only [Option.bind_eq_bind, Option.bind_some, Option.getD_map, getD_find?_head]
  rfl

theorem find?_commentEnd (r : Text) : (find? ("*/".toList.isPrefixOf ·) r).map (· + 2) =
    if (Literal.blockComment r).closed then some (Literal.blockComment r).taken.size else none := by
  fun_induction Literal.blockComment r with
  | case1 => rfl
  | case2 t => rfl
  | case3 c t hne ih =>
    have hc : "*/".toList.isPrefixOf (c :: t) = false := by
      rw [Bool.eq_false_iff]
      intro hpre
      obtain ⟨u, hu⟩ := List.isPrefixOf_iff_prefix.mp hpre
      obtain ⟨rfl, rfl⟩ := List.cons.inj hu
      exact hne u rfl rfl
    have hadd : ((· + 2) ∘ (c.utf8Size + ·) : Nat → Nat) = (c.utf8Size + ·) ∘ (· + 2) := by
      funext n
      exact Nat.add_assoc _ _ _
    rw [find?_cons_of_not hc, Option.map_map, hadd, ← Option.map_map, ih, Cut.cons]
    split <;> rfl

theorem taken_of_open (r : Text) (h : (Literal.blockComment r).closed = false) :
    (Literal.blockComment r).taken = r := by
  fun_induction Literal.blockComment r with
  | case1 => rfl
  | case2 t => cases h
  | case3 c t hne ih => exact congrArg (c :: ·) (ih h)

end Characters

section Literals

def ending (start i : Nat) (k : Cut) : Nat × Option Span :=
  (i + k.taken.size, if k.closed then none else some (.between start (i + k.taken.size)))

theorem ending_append (a : Text) (k : Cut) :
    ending start i { k with taken := a ++ k.taken } = ending start (i + a.size) k := by
  have hsize : i + Text.size (a ++ k.taken) = i + a.size + k.taken.size := by
    rw [Text.size_append, Nat.add_assoc]
  rw [ending, hsize]
  rfl

theorem ending_cons (k : Cut) : ending start i (k.cons c) = ending start (i + c.utf8Size) k :=
  ending_append [c] k

theorem ending_andThen (k : Cut) (f : Text → Cut) :
    ending start i (k.andThen f) = ending start (i + k.taken.size) (f k.rest) :=
  ending_append k.taken (f k.rest)

theorem ending_doubled (hc : c.utf8Size = 1) (k : Cut) :
    ending start i ((k.cons c).cons c) = ending start (i + 2) k := by
  rw [ending_cons, ending_cons, hc]

theorem ending_end (h : At t i []) : (t.size, some (Span.between start t.size)) = ending start i ⟨[], [], false⟩ := by
  simp [ending, h.size_eq]

theorem quoted_go_end {quote : Char} (h : At t i []) (hn : 0 < n) :
    quoted.go quote t start n i = some (ending start i ⟨[], [], false⟩) := by
  obtain ⟨n, rfl⟩ := Nat.exists_eq_add_of_lt hn
  rw [quoted.go, h.char?_eq, ← ending_end h]
  rfl

theorem quoted_go_eq {quote : Char} (h : At t i r) (hn : r.length < n) :
    quoted.go quote t start n i = some (ending start i (Literal.quoted quote r)) := by
  fun_induction Literal.quoted quote r generalizing i n with
  | case1 => exact quoted_go_end h hn
  | case2 c hc =>
    obtain ⟨n, rfl⟩ := Nat.exists_eq_add_of_lt hn
    have hpos : 0 < [c].length + n := Nat.add_pos_left Nat.one_pos n
    rw [quoted.go, h.char?_eq]
    simp only [Option.bind_eq_bind, Option.bind_some, List.head?_cons, if_pos hc, h.cons.char?_eq, List.head?_nil]
    rw [quoted_go_end h.cons hpos, ← ending_cons]
    rfl
  | case3 c hc e r ih =>
    obtain ⟨n, rfl⟩ := Nat.exists_eq_add_of_lt hn
    have hr : r.length < (c :: e :: r).length + n := by
      rw [List.length_cons, List.length_cons]
      omega
    rw [quoted.go, h.char?_eq]
    simp only [Option.bind_eq_bind, Option.bind_some, List.head?_cons, if_pos hc, h.cons.char?_eq]
    rw [ih h.cons.cons hr, ending_cons, ending_cons]
  | case4 c r hc hend =>
    obtain ⟨n, rfl⟩ := Nat.exists_eq_add_of_lt hn
    rw [quoted.go, h.char?_eq]
    simp only [Option.bind_eq_bind, Option.bind_some, List.head?_cons, if_neg hc, if_pos hend]
    rfl
  | case5 c r hc hend hquote =>
    obtain ⟨n, rfl⟩ := Nat.exists_eq_add_of_lt hn
    rw [quoted.go, h.char?_eq]
    simp only [Option.bind_eq_bind, Option.bind_some, List.head?_cons, if_neg hc, if_neg hend, if_pos hquote]
    rfl
  | case6 c r hc hend hquote ih =>
    obtain ⟨n, rfl⟩ := Nat.exists_eq_add_of_lt hn
    have hr : r.length < (c :: r).length + n := by
      rw [List.length_cons]
      omega
    rw [quoted.go, h.char?_eq]
    simp only [Option.bind_eq_bind, Option.bind_some, List.head?_cons, if_neg hc, if_neg hend, if_neg hquote]
    rw [ih h.cons hr, ending_cons]

theorem quoted_eq {quote : Char} (h : At t i r) :
    quoted quote t start i = some (ending start i (Literal.quoted quote r)) :=
  quoted_go_eq h h.length_lt

theorem special_quoted (form : Literal.StringForm) (d : Nat) (r : Text) :
    Literal.special form ⟨d, true⟩ r = (Literal.quoted '"' r).andThen (Literal.special form ⟨d, false⟩) := by
  fun_induction Literal.quoted '"' r with
  | case1 => rfl
  | case2 c hc => simp [Literal.special, hc, Cut.andThen]
  | case3 c hc e r ih =>
    rw [Literal.special.eq_def]
    simp [hc, ih, Cut.andThen, Cut.cons]
  | case4 c r hc hend =>
    change Literal.special form ⟨d, true⟩ (c :: r) = Literal.special form ⟨d, false⟩ (c :: r)
    rw [Literal.special.eq_def form ⟨d, true⟩, Literal.special.eq_def form ⟨d, false⟩]
    obtain rfl | rfl : c = '\n' ∨ c = '\r' := by simpa [Literal.isLineEnd] using hend
    · cases form.verbatim <;> simp [Literal.isLineEnd]
    · cases form.verbatim <;> simp [Literal.isLineEnd]
  | case5 c r hc hend hquote =>
    rw [Literal.special.eq_def]
    simp [hc, hquote, Cut.andThen, Cut.cons]
  | case6 c r hc hend hquote ih =>
    rw [Literal.special.eq_def]
    simp [hc, hend, hquote, ih, Cut.andThen, Cut.cons]

section Special

variable {form : Literal.StringForm} {depth : Nat}

def ReadsBelow (form : Literal.StringForm) (t : Text) (start n : Nat) : Prop :=
  ∀ ⦃r : Text⦄ ⦃j depth : Nat⦄, At t j r → r.length < n →
    special.go form t start n depth j = some (ending start j (Literal.special form ⟨depth, false⟩ r))

theorem special_nested (hbelow : ReadsBelow form t start n) (h : At t i ('"' :: r)) (hr : r.length < n)
    (hdepth : depth > 0) :
    special.go form t start (n + 1) depth i =
    some (ending start i (Literal.special form ⟨depth, false⟩ ('"' :: r))) := by
  have hat : At t (i + 1) r := h.cons
  have hwhole := Literal.quoted_whole '"' r
  have hle : (Literal.quoted '"' r).rest.length ≤ r.length := by
    have hlength := congrArg List.length hwhole
    rw [List.length_append] at hlength
    omega
  rw [special.go, h.char?_eq, Literal.special.eq_def]
  simp only [Option.bind_eq_bind, Option.bind_some, List.head?_cons, Bool.false_eq_true, beq_self_eq_true, if_true,
    if_false, if_pos hdepth]
  rw [quoted_eq hat, Option.bind_some, ending, hbelow (hat.of_whole hwhole) (by omega), special_quoted, ending_cons,
    ending_andThen]
  rfl

theorem special_closing (hbelow : ReadsBelow form t start n) (h : At t i ('"' :: r)) (hr : r.length < n)
    (hdepth : ¬ depth > 0) :
    special.go form t start (n + 1) depth i =
    some (ending start i (Literal.special form ⟨depth, false⟩ ('"' :: r))) := by
  have hat : At t (i + 1) r := h.cons
  rw [special.go, h.char?_eq, Literal.special.eq_def]
  simp only [Option.bind_eq_bind, Option.bind_some, List.head?_cons, Bool.false_eq_true, beq_self_eq_true, if_true,
    if_false, if_neg hdepth, hat.char?_eq]
  cases form.verbatim with
  | false => rfl
  | true =>
    simp only [if_true]
    split
    · rename_i hquote
      obtain ⟨r, rfl⟩ := List.head?_eq_some_iff.mp (beq_iff_eq.mp hquote)
      rw [hbelow (j := i + 2) hat.cons (Nat.lt_of_succ_lt hr)]
      exact congrArg some (ending_doubled (c := '"') rfl _).symm
    · rename_i hquote
      split
      · exact absurd rfl hquote
      · rfl

theorem special_escape (hbelow : ReadsBelow form t start n) (h : At t i (c :: r)) (hr : r.length < n)
    (hquote : ¬ (c == '"') = true) (hc : (c == '\\' && !form.verbatim) = true) :
    special.go form t start (n + 1) depth i = some (ending start i (Literal.special form ⟨depth, false⟩ (c :: r))) := by
  rw [special.go, h.char?_eq, Literal.special.eq_def]
  simp only [Option.bind_eq_bind, Option.bind_some, List.head?_cons, Bool.false_eq_true, if_false, if_neg hquote,
    if_pos hc, h.cons.char?_eq]
  cases r with
  | nil =>
    rw [List.head?_nil, hbelow h.cons hr, ← ending_cons, Literal.special.eq_def]
    rfl
  | cons e r =>
    simp only [List.head?_cons]
    rw [hbelow h.cons.cons (Nat.lt_of_succ_lt hr), ending_cons, ending_cons]

theorem special_brace (hbelow : ReadsBelow form t start n) (h : At t i ('\x7b' :: r)) (hr : r.length < n)
    (hform : form.interpolated = true) :
    special.go form t start (n + 1) depth i =
    some (ending start i (Literal.special form ⟨depth, false⟩ ('\x7b' :: r))) := by
  have hat : At t (i + 1) r := h.cons
  have hopen : ('\x7b' == '"') = false ∧ ('\x7b' == '\\') = false := by decide
  rw [special.go, h.char?_eq, Literal.special.eq_def]
  simp only [Option.bind_eq_bind, Option.bind_some, List.head?_cons, Bool.false_eq_true, if_false, hopen, hform,
    beq_self_eq_true, Bool.true_and, Bool.false_and, if_true, hat.char?_eq]
  split
  · rename_i hdepth
    obtain rfl : depth = 0 := by simpa using hdepth
    split
    · rename_i hbrace
      obtain ⟨r, rfl⟩ := List.head?_eq_some_iff.mp (beq_iff_eq.mp hbrace)
      rw [hbelow (j := i + 2) hat.cons (Nat.lt_of_succ_lt hr)]
      exact congrArg some (ending_doubled (c := '\x7b') rfl _).symm
    · rename_i hbrace
      rw [hbelow h.cons hr]
      split
      · exact absurd rfl hbrace
      · rw [ending_cons]
  · rename_i hdepth
    rw [hbelow h.cons hr]
    split
    · exact absurd rfl hdepth
    · rw [ending_cons]

theorem readsBelow (form : Literal.StringForm) (t : Text) (start n : Nat) : ReadsBelow form t start n := by
  induction n with
  | zero => exact fun r i depth _ hlt => absurd hlt (Nat.not_lt_zero _)
  | succ n hbelow =>
    intro r i depth h hlt
    cases r with
    | nil =>
      rw [special.go, h.char?_eq, Literal.special.eq_def, ← ending_end h]
      rfl
    | cons c r =>
      have hr : r.length < n := Nat.lt_of_succ_lt_succ hlt
      by_cases hquote : (c == '"') = true
      · obtain rfl : c = '"' := by simpa using hquote
        by_cases hdepth : depth > 0
        · exact special_nested hbelow h hr hdepth
        · exact special_closing hbelow h hr hdepth
      by_cases hescape : (c == '\\' && !form.verbatim) = true
      · exact special_escape hbelow h hr hquote hescape
      by_cases hbrace : (c == '\x7b' && form.interpolated) = true
      · rw [Bool.and_eq_true, beq_iff_eq] at hbrace
        obtain ⟨rfl, hform⟩ := hbrace
        exact special_brace hbelow h hr hform
      -- the signs that are left take one character and change the depth at most
      rw [special.go, h.char?_eq, Literal.special.eq_def]
      simp only [Option.bind_eq_bind, Option.bind_some, List.head?_cons, Bool.false_eq_true, if_false, if_neg hquote,
        if_neg hescape, if_neg hbrace, hbelow h.cons hr]
      split
      · rw [ending_cons]
      split
      · rfl
      · rw [ending_cons]

theorem special_eq (h : At t i r) :
    special form t start i = some (ending start i (Literal.special form ⟨0, false⟩ r)) :=
  readsBelow form t start _ h h.length_lt

end Special

theorem find?_quote {signs : Text} (hsigns : '"' ∉ signs) :
    find? (·.head? == some '"') (signs ++ '"' :: u) = some signs.size := by
  induction signs with
  | nil => rfl
  | cons c signs ih =>
    rw [List.mem_cons, not_or] at hsigns
    rw [List.cons_append, find?_cons_of_not (by simpa using Ne.symm hsigns.1), ih hsigns.2]
    rfl

theorem signedString_of (signs : Text) (hsigns : '"' ∉ signs) (h : At t i (signs ++ '"' :: u)) :
    let body := Literal.special ⟨signs.contains '@', signs.contains '$'⟩ ⟨0, false⟩ u
    signedString t i = some (ending i i { body with taken := signs ++ '"' :: body.taken }) := by
  intro body
  have hbody : At t (i + signs.size + 1) u := h.append.cons
  rw [signedString, h.rest?_eq]
  simp only [Option.bind_eq_bind, Option.bind_some, find?_quote hsigns, Option.getD_some, h.slice?_eq]
  rw [special_eq hbody]
  exact congrArg some ((ending_append signs (body.cons '"')).trans (ending_cons body)).symm

theorem signedString_eq {form : Literal.StringForm} {opening : Text}
    (hform : Literal.stringForm? r = some (form, opening)) (h : At t i r) :
    let body := Literal.special form ⟨0, false⟩ (r.drop opening.length)
    signedString t i = some (ending i i { body with taken := opening ++ body.taken }) := by
  unfold Literal.stringForm? at hform
  split at hform
  · cases hform
    exact signedString_of ['@'] (by decide) h
  · cases hform
    exact signedString_of ['$'] (by decide) h
  · cases hform
    exact signedString_of ['$', '@'] (by decide) h
  · cases hform
    exact signedString_of ['@', '$'] (by decide) h
  · cases hform

theorem opensString_eq (r : Text) : opensString r = (Literal.stringForm? r).isSome := by
  unfold Literal.stringForm?
  split
  · rfl
  · rfl
  · rfl
  · rfl
  · rename_i h₁ h₂ h₃ h₄
    rw [Option.isSome_none, opensString, Bool.eq_false_iff]
    intro hany
    obtain ⟨s, hs, hpre⟩ := List.any_eq_true.mp hany
    obtain ⟨u, rfl⟩ := List.isPrefixOf_iff_prefix.mp hpre
    simp only [List.mem_cons, List.not_mem_nil, or_false] at hs
    obtain rfl | rfl | rfl | rfl := hs
    · exact h₁ u rfl
    · exact h₂ u rfl
    · exact h₃ u rfl
    · exact h₄ u rfl

end Literals

section Numbers

def Ascii (p : Char → Bool) : Prop :=
  ∀ c, p c = true → c.toNat ≤ 127

theorem utf8Size_of_ascii {p : Char → Bool} (hp : Ascii p) (hc : p c = true) : c.utf8Size = 1 :=
  Char.utf8Size_eq_one_iff.mpr (UInt32.le_iff_toNat_le.mpr (hp c hc))

theorem exists_firstByte (c : Char) : ∃ b bs, String.utf8EncodeChar c = b :: bs ∧
    (b.toNat = c.toNat ∨ 127 < c.toNat ∧ 127 < b.toNat) := by
  have hnat : c.val.toNat = c.toNat := rfl
  simp only [String.utf8EncodeChar, hnat]
  split
  · refine ⟨_, _, rfl, .inl ?_⟩
    rw [UInt8.toNat_ofNat']
    omega
  split
  · refine ⟨_, _, rfl, .inr ⟨by omega, ?_⟩⟩
    rw [UInt8.toNat_ofNat']
    omega
  split
  · refine ⟨_, _, rfl, .inr ⟨by omega, ?_⟩⟩
    rw [UInt8.toNat_ofNat']
    omega
  · refine ⟨_, _, rfl, .inr ⟨by omega, ?_⟩⟩
    rw [UInt8.toNat_ofNat']
    omega

theorem byteIs_eq {p : Char → Bool} (hp : Ascii p) (h : At t i r) : byteIs p t i = r.head?.any p := by
  obtain ⟨a, rfl, rfl⟩ := h
  have hrest : (Text.bytes (a ++ r))[a.size]? = (Text.bytes r).head? := by
    rw [Text.bytes_append, List.getElem?_append_right (Nat.le_of_eq (Text.length_bytes a)), Text.length_bytes,
      Nat.sub_self, List.head?_eq_getElem?]
  rw [byteIs, hrest]
  cases r with
  | nil => rfl
  | cons c r =>
    obtain ⟨b, bs, hb, hcode⟩ := exists_firstByte c
    have hhead : (Text.bytes (c :: r)).head? = some b := by simp [Text.bytes, hb]
    rw [hhead, Option.any_some, List.head?_cons, Option.any_some]
    obtain hcode | ⟨hc, hbyte⟩ := hcode
    · rw [hcode, Char.ofNat_toNat]
    · have hpc : p c = false := by
        rw [Bool.eq_false_iff]
        intro hpc
        exact absurd (hp c hpc) (by omega)
      rw [hpc, Bool.eq_false_iff]
      intro hpb
      have hle := hp _ hpb
      have hlt := b.toNat_lt
      have hvalid : b.toNat.isValidChar := .inl (by omega)
      rw [Char.ofNat, dif_pos hvalid] at hle
      exact absurd hle (Nat.not_le.mpr hbyte)

theorem skipBytes_go_eq {p : Char → Bool} (hp : Ascii p) (h : At t i r) (hn : r.length < n) :
    skipBytes.go p t n i = some (i + Text.size (r.takeWhile p)) := by
  induction n generalizing r i with
  | zero => exact absurd hn (Nat.not_lt_zero _)
  | succ n ih =>
    rw [skipBytes.go, byteIs_eq hp h]
    cases r with
    | nil => rfl
    | cons c r =>
      rw [List.head?_cons, Option.any_some, List.takeWhile_cons]
      split
      · rename_i hc
        have hat : At t (i + 1) r := by
          rw [← utf8Size_of_ascii hp hc]
          exact h.cons
        rw [ih hat (Nat.lt_of_succ_lt_succ hn), Text.size_cons, utf8Size_of_ascii hp hc, Nat.add_assoc]
      · rfl

theorem skipBytes_eq {p : Char → Bool} (hp : Ascii p) (h : At t i r) :
    skipBytes p t i = some (i + Text.size (r.takeWhile p)) :=
  skipBytes_go_eq hp h h.length_lt

theorem ascii_isDigit : Ascii Char.isDigit := by
  intro c hc
  simp only [Char.isDigit, Bool.and_eq_true, decide_eq_true_eq] at hc
  have := UInt32.le_iff_toNat_le.mp hc.2
  exact Nat.le_trans this (by decide)

theorem Ascii.or {p q : Char → Bool} (hp : Ascii p) (hq : Ascii q) : Ascii (fun c => p c || q c) := by
  intro c hc
  obtain hc | hc := Bool.or_eq_true_iff.mp hc
  · exact hp c hc
  · exact hq c hc

theorem ascii_mem (l : List Char) (hl : l.all (·.toNat ≤ 127) = true) : Ascii (l.contains ·) := by
  intro c hc
  exact of_decide_eq_true (List.all_eq_true.mp hl c (List.contains_iff_mem.mp hc))

theorem ascii_eq (d : Char) (hd : d.toNat ≤ 127) : Ascii (· == d) := by
  intro c hc
  rwa [beq_iff_eq.mp hc]

theorem ascii_isDigitOrMark : Ascii Literal.isDigitOrMark :=
  (ascii_eq '_' (by decide)).or ascii_isDigit

theorem ascii_isRealSuffix : Ascii isRealSuffix :=
  ascii_mem _ (by decide)

theorem ascii_isIntegerSuffix : Ascii isIntegerSuffix :=
  (((ascii_eq 'u' (by decide)).or (ascii_eq 'U' (by decide))).or (ascii_eq 'l' (by decide))).or
    (ascii_eq 'L' (by decide))

theorem fraction_eq (h : At t i r) :
    fraction t i = some (!(Literal.fraction r).taken.isEmpty, i + (Literal.fraction r).taken.size) := by
  rw [fraction, byteIs_eq (ascii_eq '.' (by decide)) h]
  fun_cases Literal.fraction r with
  | case1 d r hd =>
    have hat : At t (i + 1) (d :: r) := h.cons
    rw [byteIs_eq ascii_isDigit hat, skipBytes_eq ascii_isDigitOrMark hat]
    simp only [List.head?_cons, Option.any_some, beq_self_eq_true, hd, Bool.and_self, if_true, Option.bind_eq_bind,
      Option.bind_some, Nat.add_assoc]
    rfl
  | case2 d r hd =>
    have hat : At t (i + 1) (d :: r) := h.cons
    rw [byteIs_eq ascii_isDigit hat]
    simp [hd]
  | case3 r hne =>
    have hnone : (r.head?.any (· == '.') && byteIs Char.isDigit t (i + 1)) = false := by
      match r with
      | [] => rfl
      | [c] =>
        by_cases hc : c = '.'
        · subst hc
          rw [byteIs_eq ascii_isDigit (show At t (i + 1) [] from h.cons)]
          rfl
        · simp [hc]
      | c :: d :: r =>
        have hc : c ≠ '.' := fun hc => hne d r (by rw [hc])
        simp [hc]
    rw [hnone]
    rfl

theorem size_oneIf {p : Char → Bool} (hp : Ascii p) (r : Text) :
    (Literal.oneIf p r).taken.size = if r.head?.any p then 1 else 0 := by
  cases r with
  | nil => rfl
  | cons c r =>
    rw [Literal.oneIf, List.head?_cons, Option.any_some]
    split
    · rename_i hc
      exact utf8Size_of_ascii hp hc
    · rfl

theorem size_realSuffix (h : r.head?.any isRealSuffix = true) : (Literal.realSuffix r).taken.size = 1 :=
  (size_oneIf ascii_isRealSuffix r).trans (if_pos h)

theorem taken_oneIf_eq_nil {p : Char → Bool} (h : r.head?.any p = false) : (Literal.oneIf p r).taken = [] := by
  cases r with
  | nil => rfl
  | cons c r => rw [Literal.oneIf, if_neg (by simpa using h)]

theorem taken_span_eq_nil {p : Char → Bool} (h : r.head?.any p = false) : (Cut.span p r).taken = [] := by
  cases r with
  | nil => rfl
  | cons c r => exact List.takeWhile_cons_of_neg (by simpa using h)

theorem taken_span_ne_nil {p : Char → Bool} (h : r.head?.any p = true) : (Cut.span p r).taken ≠ [] := by
  cases r with
  | nil => simp at h
  | cons c r => simp [Cut.span, show p c = true from h]

theorem exponent_eq (h : At t i r) :
    exponent t i = some (!(Literal.exponent r).taken.isEmpty, i + (Literal.exponent r).taken.size) := by
  have hmark : Ascii (fun c => c == 'e' || c == 'E') := (ascii_eq 'e' (by decide)).or (ascii_eq 'E' (by decide))
  have hsign : Ascii (fun c => c == '+' || c == '-') := (ascii_eq '+' (by decide)).or (ascii_eq '-' (by decide))
  rw [exponent, byteIs_eq hmark h]
  cases r with
  | nil => rfl
  | cons c r =>
    rw [List.head?_cons, Option.any_some, Literal.exponent, Literal.oneIf]
    split
    · rename_i hc
      have hat : At t (i + 1) r := by
        rw [← utf8Size_of_ascii hmark hc]
        exact h.cons
      generalize hk : Literal.oneIf (fun c => c == '+' || c == '-') r = k
      have hdigits : At t (i + 1 + k.taken.size) k.rest := hat.of_whole (hk ▸ Literal.oneIf_whole _ r)
      have hj : (if r.head?.any (fun c => c == '+' || c == '-') then i + 2 else i + 1) = i + 1 + k.taken.size := by
        rw [← hk, size_oneIf hsign]
        split <;> rfl
      simp only [byteIs_eq hsign hat, hj, byteIs_eq ascii_isDigit hdigits, skipBytes_eq ascii_isDigit hdigits]
      cases hd : k.rest.head?.any Char.isDigit with
      | true =>
        have hne := taken_span_ne_nil hd
        have hlong : ([c].isEmpty || ([c] ++ k.taken ++ (Cut.span Char.isDigit k.rest).taken).length ==
            ([c] ++ k.taken).length) = false := by
          simp [List.length_append, List.length_eq_zero_iff, hne]
        simp only [Cut.andThen, hk, if_true, hlong, Bool.false_eq_true, if_false, Text.size_append, Text.size_cons,
          Text.size_nil, utf8Size_of_ascii hmark hc, Option.bind_eq_bind, Option.bind_some, Nat.add_assoc, Nat.zero_add]
        rfl
      | false =>
        have hnil := taken_span_eq_nil hd
        simp only [Cut.andThen, hk, hnil, List.append_nil, beq_self_eq_true, Bool.or_true, if_true]
        rfl
    · rfl

theorem decimal_of_realSuffix (hs : (Literal.decimalScaled r).rest.head?.any isRealSuffix = true) :
    Literal.decimal r = (.realLiteral, (Literal.decimalScaled r).andThen Literal.realSuffix) := by
  have hne : (Literal.realSuffix (Literal.decimalScaled r).rest).taken ≠ [] := by
    intro hnil
    have hsize := size_realSuffix hs
    rw [hnil] at hsize
    cases hsize
  rw [Literal.decimal_eq, if_pos]
  rw [Cut.andThen, List.length_append]
  exact Nat.lt_add_of_pos_right (List.length_pos_iff.mpr hne)

theorem decimal_of_not_realSuffix (hs : (Literal.decimalScaled r).rest.head?.any isRealSuffix = false) :
    Literal.decimal r =
      (if !(Literal.fraction (Literal.decimalWhole r).rest).taken.isEmpty ||
          !(Literal.exponent (Literal.decimalFront r).rest).taken.isEmpty then .realLiteral else .intLiteral,
        (Literal.decimalScaled r).andThen Literal.integerSuffix) := by
  have hnil : (Literal.realSuffix (Literal.decimalScaled r).rest).taken = [] := taken_oneIf_eq_nil hs
  have hlong : (Literal.decimalWhole r).taken.length < (Literal.decimalScaled r).taken.length ↔
      (!(Literal.fraction (Literal.decimalWhole r).rest).taken.isEmpty ||
        !(Literal.exponent (Literal.decimalFront r).rest).taken.isEmpty) = true := by
    simp only [Literal.decimalScaled, Literal.decimalFront, Cut.andThen, List.length_append]
    cases (Literal.fraction (Literal.decimalWhole r).rest).taken <;>
      cases (Literal.exponent (Literal.fraction (Literal.decimalWhole r).rest).rest).taken <;> (simp; try omega)
  rw [Literal.decimal_eq, if_neg (by simp [Cut.andThen, hnil])]
  simp only [hlong]

theorem decimal_eq (h : At t i r) :
    decimal t i = some ((Literal.decimal r).1, i + (Literal.decimal r).2.taken.size) := by
  have hwhole : At t (i + (Literal.decimalWhole r).taken.size) (Literal.decimalWhole r).rest :=
    h.of_whole (Cut.span_whole _ r)
  have hfront := hwhole.of_whole (Literal.fraction_whole _)
  have hscaled := hfront.of_whole (Literal.exponent_whole _)
  rw [decimal, skipBytes_eq ascii_isDigitOrMark h]
  change (fraction t (i + (Literal.decimalWhole r).taken.size)).bind _ = _
  rw [fraction_eq hwhole]
  simp only [Option.bind_some, Option.bind_eq_bind, exponent_eq hfront, byteIs_eq ascii_isRealSuffix hscaled,
    skipBytes_eq ascii_isIntegerSuffix hscaled]
  cases hs : (Literal.exponent (Literal.fraction (Literal.decimalWhole r).rest).rest).rest.head?.any isRealSuffix with
  | true =>
    rw [decimal_of_realSuffix hs]
    simp only [if_true, Cut.andThen, Text.size_append, size_realSuffix hs, Literal.decimalScaled, Literal.decimalFront,
      Nat.add_assoc]
    rfl
  | false =>
    rw [decimal_of_not_realSuffix hs]
    simp only [Bool.false_eq_true, if_false, Cut.andThen, Text.size_append, Literal.decimalScaled,
      Literal.decimalFront, Nat.add_assoc]
    rfl

theorem ascii_isHexDigit : Ascii Literal.isHexDigit := by
  have hbelow : ∀ {c d : Char}, c ≤ d → d.toNat ≤ 127 → c.toNat ≤ 127 := by
    intro c d hcd hd
    exact Nat.le_trans (UInt32.le_iff_toNat_le.mp hcd) hd
  intro c hc
  simp only [Literal.isHexDigit, Bool.or_eq_true, Bool.and_eq_true, decide_eq_true_eq] at hc
  obtain (hc | ⟨-, hc⟩) | ⟨-, hc⟩ := hc
  · exact ascii_isDigit c hc
  · exact hbelow hc (by decide)
  · exact hbelow hc (by decide)

theorem skipDigits_eq {p : Char → Bool} (hp : Ascii p) (h : At t i r) :
    skipDigits p t i = some (i + ((Cut.span p r).andThen Literal.integerSuffix).taken.size) := by
  rw [skipDigits, skipBytes_eq hp h]
  refine (skipBytes_eq ascii_isIntegerSuffix (h.of_whole (Cut.span_whole p r))).trans ?_
  rw [Cut.andThen, Text.size_append, Nat.add_assoc]
  rfl

theorem skipDigits_based {p : Char → Bool} {x : Char} (hp : Ascii p) (hx : x.utf8Size = 1)
    (h : At t i ('0' :: x :: u)) :
    skipDigits p t (i + 2) =
      some (i + ((((Cut.span p u).andThen Literal.integerSuffix).cons x).cons '0').taken.size) := by
  have hat : At t (i + 2) u := by
    have hat := h.cons.cons
    rwa [hx] at hat
  rw [skipDigits_eq hp hat, Cut.cons, Cut.cons, Text.size_cons, Text.size_cons, hx, show '0'.utf8Size = 1 from rfl,
    ← Nat.add_assoc 1, Nat.add_assoc]

theorem startsBased (d e x : Char) (u : Text) :
    (['0', d].isPrefixOf ('0' :: x :: u) || ['0', e].isPrefixOf ('0' :: x :: u)) = (x == d || x == e) := by
  rw [BEq.comm (b := d), BEq.comm (b := e)]
  simp only [List.isPrefixOf, beq_self_eq_true, Bool.true_and, Bool.and_true]

theorem number_eq (h : At t i r) : number t i = some ((Literal.number r).1, i + (Literal.number r).2.taken.size) := by
  rw [number, h.rest?_eq]
  simp only [Option.bind_eq_bind, Option.bind_some]
  have hhex : ∀ x u, ("0x".toList.isPrefixOf ('0' :: x :: u) || "0X".toList.isPrefixOf ('0' :: x :: u)) =
      (x == 'x' || x == 'X') := startsBased 'x' 'X'
  have hbinary : ∀ x u, ("0b".toList.isPrefixOf ('0' :: x :: u) || "0B".toList.isPrefixOf ('0' :: x :: u)) =
      (x == 'b' || x == 'B') := startsBased 'b' 'B'
  fun_cases Literal.number r with
  | case1 x u hx =>
    have hsize : x.utf8Size = 1 := utf8Size_of_ascii ((ascii_eq 'x' (by decide)).or (ascii_eq 'X' (by decide))) hx
    have hp : Ascii (fun c => c == '_' || Literal.isHexDigit c) := (ascii_eq '_' (by decide)).or ascii_isHexDigit
    rw [hhex, if_pos hx, skipDigits_based hp hsize h]
    rfl
  | case2 x u hx hb =>
    have hsize : x.utf8Size = 1 := utf8Size_of_ascii ((ascii_eq 'b' (by decide)).or (ascii_eq 'B' (by decide))) hb
    have hp : Ascii (fun c => c == '_' || c == '0' || c == '1') :=
      ((ascii_eq '_' (by decide)).or (ascii_eq '0' (by decide))).or (ascii_eq '1' (by decide))
    rw [hhex, if_neg hx, hbinary, if_pos hb, skipDigits_based hp hsize h]
    rfl
  | case3 x u hx hb => rw [hhex, if_neg hx, hbinary, if_neg hb, decimal_eq h]
  | case4 r hne =>
    have hbased : ∀ d, ['0', d].isPrefixOf r = false := by
      intro d
      rw [Bool.eq_false_iff]
      intro hpre
      obtain ⟨u, rfl⟩ := List.isPrefixOf_iff_prefix.mp hpre
      exact hne d u rfl
    rw [if_neg (by simp [hbased]), if_neg (by simp [hbased]), decimal_eq h]

end Numbers

end Scanner

end Lintel
