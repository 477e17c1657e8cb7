import Lintel.Config.Load

namespace Lintel

section AddNew

variable {α : Type} {key : α → String}

def addNew (key : α → String) (a : List α) (x : α) : List α :=
  if a.any (key · == key x) then a else a ++ [x]

theorem any_addNew (a : List α) (x : α) (k : String) :
    (addNew key a x).any (key · == k) = (a.any (key · == k) || key x == k) := by
  unfold addNew
  split
  · rename_i h
    by_cases hk : key x = k
    · simpa [hk] using h
    · simp [hk]
  · simp

theorem any_foldl_addNew (a b : List α) (k : String) :
    (b.foldl (addNew key) a).any (key · == k) = (a.any (key · == k) || b.any (key · == k)) := by
  induction b generalizing a with
  | nil => simp
  | cons x b ih => rw [List.foldl_cons, ih, any_addNew, List.any_cons, Bool.or_assoc]

theorem foldl_addNew_addNew (a b : List α) (x : α) :
    (addNew key b x).foldl (addNew key) a = addNew key (b.foldl (addNew key) a) x := by
  by_cases h : b.any (key · == key x)
  · have hfold : (b.foldl (addNew key) a).any (key · == key x) = true := by rw [any_foldl_addNew, h, Bool.or_true]
    rw [addNew, if_pos h, addNew, if_pos hfold]
  · rw [addNew, if_neg h, List.foldl_append]
    rfl

theorem foldl_addNew_assoc (a b c : List α) :
    c.foldl (addNew key) (b.foldl (addNew key) a) = (c.foldl (addNew key) b).foldl (addNew key) a := by
  induction c generalizing b with
  | nil => rfl
  | cons x c ih => rw [List.foldl_cons, List.foldl_cons, ← ih, foldl_addNew_addNew]

theorem foldl_addNew_of_subset (a b : List α) (h : b ⊆ a) : b.foldl (addNew key) a = a := by
  induction b with
  | nil => rfl
  | cons x b ih =>
    have hx : a.any (key · == key x) = true := List.any_eq_true.mpr ⟨x, h (List.mem_cons_self ..), by simp⟩
    rw [List.foldl_cons, addNew, if_pos hx]
    exact ih (fun y hy => h (List.mem_cons_of_mem _ hy))

theorem mem_foldl_addNew {a b : List α} {x : α} (h : x ∈ b.foldl (addNew key) a) : x ∈ a ∨ x ∈ b := by
  induction b generalizing a with
  | nil => exact .inl h
  | cons y b ih =>
    obtain hx | hx := ih h
    · unfold addNew at hx
      split at hx
      · exact .inl hx
      · simp only [List.mem_append, List.mem_singleton] at hx
        obtain hx | rfl := hx
        · exact .inl hx
        · exact .inr (List.mem_cons_self ..)
    · exact .inr (List.mem_cons_of_mem _ hx)

theorem find?_foldl_addNew (a b : List α) (k : String) :
    (b.foldl (addNew key) a).find? (key · == k) = (a.find? (key · == k)).or (b.find? (key · == k)) := by
  induction b generalizing a with
  | nil => simp
  | cons x b ih =>
    rw [List.foldl_cons, ih, addNew]
    split
    · rename_i h
      by_cases hk : key x = k
      · have hsome : (a.find? (key · == k)).isSome := by simpa [hk] using h
        obtain ⟨y, hy⟩ := Option.isSome_iff_exists.mp hsome
        simp [hy]
      · simp [hk]
    · by_cases hk : key x = k <;> cases ha : a.find? (key · == k) <;> simp [ha, hk]

end AddNew

theorem putNew_eq : Severities.putNew = addNew Prod.fst :=
  rfl

theorem appendNew_eq : appendNew = addNew id := by
  funext a s
  have hany : a.contains s = a.any (id · == id s) := by
    rw [List.contains_eq_any_beq]
    exact List.any_congr rfl (fun t => Bool.beq_comm)
  rw [appendNew, addNew, hany]

section MergeOptional

variable {α : Type} {f : α → α → α}

theorem mergeOptional_assoc (hf : ∀ a b c, f (f a b) c = f a (f b c)) (a b c : Option α) :
    mergeOptional f (mergeOptional f a b) c = mergeOptional f a (mergeOptional f b c) := by
  cases a <;> cases b <;> cases c <;> simp [mergeOptional, hf]

theorem mergeOptional_none (a : Option α) : mergeOptional f a none = a := by
  cases a <;> rfl

theorem mergeOptional_self (hf : ∀ a, f a a = a) (a : Option α) : mergeOptional f a a = a := by
  cases a <;> simp [mergeOptional, hf]

theorem bind_mergeOptional {β : Type} {view : α → Option β} (hf : ∀ a b, view (f a b) = (view a).or (view b))
    (a b : Option α) : (mergeOptional f a b).bind view = (a.bind view).or (b.bind view) := by
  cases a <;> cases b <;> simp [mergeOptional, hf]

end MergeOptional

namespace Settings

theorem merge_assoc (a b c : Settings) : (a.merge b).merge c = a.merge (b.merge c) := by
  have hpatterns : ∀ p q r : List String, r.foldl appendNew (q.foldl appendNew p) =
    (r.foldl appendNew q).foldl appendNew p := by
    rw [appendNew_eq]
    exact foldl_addNew_assoc
  simp only [merge, mk.injEq]
  refine ⟨?_, ?_, ?_, ?_⟩
  · apply mergeOptional_assoc
    intro p q r
    exact foldl_addNew_assoc p q r
  · apply mergeOptional_assoc
    intro p q r
    simp only [ExemptionSettings.merge, ExemptionSettings.mk.injEq]
    exact mergeOptional_assoc hpatterns _ _ _
  · apply mergeOptional_assoc
    intro p q r
    simp [DispatchSettings.merge, Option.or_assoc]
  · apply mergeOptional_assoc
    intro p q r
    simp [FixSettings.merge, Option.or_assoc]

theorem empty_merge (a : Settings) : merge {} a = a :=
  rfl

theorem merge_empty (a : Settings) : a.merge {} = a := by
  simp [merge, mergeOptional_none]

theorem merge_self (a : Settings) : a.merge a = a := by
  have hpatterns : ∀ p : List String, p.foldl appendNew p = p := by
    rw [appendNew_eq]
    exact fun p => foldl_addNew_of_subset p p (List.Subset.refl p)
  have hrules : ∀ s : Severities, s.merge s = s := fun s => foldl_addNew_of_subset s s (List.Subset.refl s)
  have hexempt : ∀ e : ExemptionSettings, e.merge e = e := by
    intro e
    simp [ExemptionSettings.merge, mergeOptional_self hpatterns]
  have hdispatch : ∀ d : DispatchSettings, d.merge d = d := by
    intro d
    simp [DispatchSettings.merge]
  have hfix : ∀ x : FixSettings, x.merge x = x := by
    intro x
    simp [FixSettings.merge]
  simp [merge, mergeOptional_self, hrules, hexempt, hdispatch, hfix]

theorem severity?_merge (a b : Settings) (rule : String) :
    (a.merge b).severity? rule = (a.severity? rule).or (b.severity? rule) := by
  apply bind_mergeOptional
  intro p q
  rw [Severities.get?, Severities.merge, putNew_eq, find?_foldl_addNew]
  simp [Severities.get?, Option.map_or]

theorem interval_merge (a b : Settings) :
    (a.merge b).dispatch.bind (·.interval) = (a.dispatch.bind (·.interval)).or (b.dispatch.bind (·.interval)) := by
  apply bind_mergeOptional
  intro p q
  simp [DispatchSettings.merge]

theorem maxPasses_merge (a b : Settings) :
    (a.merge b).fix.bind (·.maxPasses) = (a.fix.bind (·.maxPasses)).or (b.fix.bind (·.maxPasses)) := by
  apply bind_mergeOptional
  intro p q
  simp [FixSettings.merge]

theorem verify_merge (a b : Settings) :
    (a.merge b).fix.bind (·.verify) = (a.fix.bind (·.verify)).or (b.fix.bind (·.verify)) := by
  apply bind_mergeOptional
  intro p q
  simp [FixSettings.merge]

theorem foldl_merge_first {β : Type} {view : Settings → Option β}
    (hview : ∀ a b, view (a.merge b) = (view a).or (view b))
    (a : Settings) (ss : List Settings) : view (ss.foldl merge a) = (view a).or (ss.findSome? view) := by
  induction ss generalizing a with
  | nil => simp
  | cons s ss ih =>
    rw [List.foldl_cons, ih, hview, Option.or_assoc, List.findSome?_cons]
    cases view s <;> rfl

theorem mergeAll_first {β : Type} (view : Settings → Option β) (hview : ∀ a b, view (a.merge b) = (view a).or (view b))
    (hempty : view {} = none) (ss : List Settings) : view (mergeAll ss) = ss.findSome? view := by
  rw [mergeAll, foldl_merge_first hview, hempty, Option.none_or]

theorem mem_patterns_merge {a b : Settings} {p : String} (h : p ∈ (a.merge b).patterns) :
    p ∈ a.patterns ∨ p ∈ b.patterns := by
  simp only [patterns, merge] at h ⊢
  cases ha : a.exemptions with
  | none =>
    rw [ha] at h
    exact .inr h
  | some e =>
    cases hb : b.exemptions with
    | none =>
      rw [ha, hb] at h
      exact .inl h
    | some x =>
      rw [ha, hb] at h
      simp only [mergeOptional, ExemptionSettings.merge, Option.bind_some] at h ⊢
      cases he : e.typeNamePatterns with
      | none =>
        rw [he] at h
        exact .inr h
      | some ps =>
        cases hx : x.typeNamePatterns with
        | none =>
          rw [he, hx] at h
          exact .inl h
        | some qs =>
          rw [he, hx] at h
          simp only [Option.getD_some, appendNew_eq] at h ⊢
          exact mem_foldl_addNew h

theorem mem_patterns_foldl_merge {a : Settings} {ss : List Settings} {p : String}
    (h : p ∈ (ss.foldl merge a).patterns) :
    p ∈ a.patterns ∨ ∃ s ∈ ss, p ∈ s.patterns := by
  induction ss generalizing a with
  | nil => exact .inl h
  | cons s ss ih =>
    obtain hp | ⟨x, hx, hp⟩ := ih h
    · obtain hp | hp := mem_patterns_merge hp
      · exact .inl hp
      · exact .inr ⟨s, List.mem_cons_self .., hp⟩
    · exact .inr ⟨x, List.mem_cons_of_mem _ hx, hp⟩

theorem refused_unless {b : Bool} {e : Failure} {r : Except Failure Unit} :
    (if b then throw e else r) = .ok () ↔ b = false ∧ r = .ok () := by
  cases b with
  | false => simp
  | true =>
    constructor
    · intro h
      cases h
    · rintro ⟨h, -⟩
      cases h

theorem validate_eq_ok_iff (valid : String → Bool) (s : Settings) :
    s.validate valid = .ok () ↔ (∀ p ∈ s.patterns, valid p = true) ∧ s.interval ≠ 0 ∧ s.maxPasses ≠ 0 := by
  rw [validate, refused_unless, refused_unless, refused_unless]
  simp

theorem getD_findSome? {β : Type} {P : β → Prop} {view : Settings → Option β} {default : β} (hdefault : P default)
    {ss : List Settings} (h : ∀ s ∈ ss, P ((view s).getD default)) : P ((ss.findSome? view).getD default) := by
  cases hfind : ss.findSome? view with
  | none => exact hdefault
  | some b =>
    obtain ⟨s, hs, hb⟩ := List.exists_of_findSome?_eq_some hfind
    have hP := h s hs
    rwa [hb] at hP

theorem validate_mergeAll {valid : String → Bool} {ss : List Settings} (h : ∀ s ∈ ss, s.validate valid = .ok ()) :
    (mergeAll ss).validate valid = .ok () := by
  have hvalid := fun s hs => (validate_eq_ok_iff valid s).mp (h s hs)
  rw [validate_eq_ok_iff]
  refine ⟨?_, ?_, ?_⟩
  · intro p hp
    obtain hp | ⟨s, hs, hp⟩ := mem_patterns_foldl_merge hp
    · cases hp
    · exact (hvalid s hs).1 p hp
  · rw [interval, mergeAll_first (fun s => s.dispatch.bind (·.interval)) interval_merge rfl]
    exact getD_findSome? (P := (· ≠ 0)) (by decide) (fun s hs => (hvalid s hs).2.1)
  · rw [maxPasses, mergeAll_first (fun s => s.fix.bind (·.maxPasses)) maxPasses_merge rfl]
    exact getD_findSome? (P := (· ≠ 0)) (by decide) (fun s hs => (hvalid s hs).2.2)

/-- Layers form an idempotent monoid, in a pile the first layer that sets something decides, and a pile of valid layers
is valid. -/
theorem layers_lawful :
    (∀ a b c : Settings, (a.merge b).merge c = a.merge (b.merge c)) ∧
      (∀ a : Settings, merge {} a = a ∧ a.merge {} = a ∧ a.merge a = a) ∧
      ∀ ss : List Settings,
        (∀ rule, (mergeAll ss).severity? rule = ss.findSome? (·.severity? rule)) ∧
          (mergeAll ss).dispatch.bind (·.interval) = ss.findSome? (fun s => s.dispatch.bind (·.interval)) ∧
          (mergeAll ss).fix.bind (·.maxPasses) = ss.findSome? (fun s => s.fix.bind (·.maxPasses)) ∧
          (mergeAll ss).fix.bind (·.verify) = ss.findSome? (fun s => s.fix.bind (·.verify)) ∧
          ∀ valid : String → Bool, (∀ s ∈ ss, s.validate valid = .ok ()) → loadAll ss valid = .ok (mergeAll ss) := by
  refine ⟨merge_assoc, fun a => ⟨empty_merge a, merge_empty a, merge_self a⟩, fun ss => ⟨?_, ?_, ?_, ?_, ?_⟩⟩
  · intro rule
    apply mergeAll_first (fun s => s.severity? rule) _ rfl
    intro a b
    exact severity?_merge a b rule
  · exact mergeAll_first (fun s => s.dispatch.bind (·.interval)) interval_merge rfl ss
  · exact mergeAll_first (fun s => s.fix.bind (·.maxPasses)) maxPasses_merge rfl ss
  · exact mergeAll_first (fun s => s.fix.bind (·.verify)) verify_merge rfl ss
  · intro valid h
    rw [loadAll, validate_mergeAll h]
    rfl

def pile : List Settings :=
  [{ rules := some [("SA1119", .off)], exemptions := some { typeNamePatterns := some ["^N", "^N"] } },
    { rules := some [("SA1000", .info), ("SA1119", .error)]
      exemptions := some { typeNamePatterns := some ["^N", "Methods$"] }
      fix := some { maxPasses := some 7 } }]

theorem layers_lawful_pile :
    (∀ s ∈ pile, s.validate (· != "[") = .ok ()) ∧ loadAll pile (· != "[") = .ok (mergeAll pile) ∧
      (mergeAll pile).severity? "SA1119" = some .off ∧ (mergeAll pile).patterns = ["^N", "^N", "Methods$"] := by
  have hvalid : ∀ s ∈ pile, s.validate (· != "[") = .ok () := by
    intro s hs
    rw [validate_eq_ok_iff]
    obtain rfl | rfl : s = _ ∨ s = _ := by simpa [pile] using hs
    · decide
    · decide
  obtain ⟨hseverity, -, -, -, hload⟩ := layers_lawful.2.2 pile
  exact ⟨hvalid, hload _ hvalid, (hseverity "SA1119").trans (by decide), by decide⟩

end Settings

end Lintel
