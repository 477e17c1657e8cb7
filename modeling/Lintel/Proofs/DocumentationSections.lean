import Mathlib.Data.List.Basic
import Mathlib.Data.List.Induction
import Lintel.Markup.Summary

namespace Lintel.Markup

namespace Event

def isLeaf : Event → Bool
  | .start _ => false
  | .stop => false
  | _ => true

def name? : Event → Option Text
  | .start name => some name
  | .empty name => some name
  | _ => none

def refers (e : Event) : Bool :=
  e.name?.any Summary.isReference

def namesSection (e : Event) : Bool :=
  e.name?.any Summary.isSection

/-- Whether an event is content: a text that is not blank, or an empty element that is neither a reference nor the first
section. `seen` says whether there was a section before it. -/
def isContent (seen : Bool) : Event → Bool
  | .text t => !t.all Summary.isBlank
  | .data t => !t.all Summary.isBlank
  | .empty name => !Summary.isReference name && !(Summary.isSection name && !seen)
  | _ => false

end Event

inductive Balanced : List Event → Prop
  | nil : Balanced []
  | leaf {e : Event} {es : List Event} (he : e.isLeaf = true) (h : Balanced es) : Balanced (e :: es)
  | element (name : Text) {inner es : List Event} (hinner : Balanced inner) (h : Balanced es) :
      Balanced (.start name :: (inner ++ .stop :: es))

def HasOpen (es : List Event) : Prop :=
  ∃ a name b, es = a ++ Event.start name :: b ∧ Balanced b

def Nested (es : List Event) : Prop :=
  ∀ a b, es = a ++ Event.stop :: b → HasOpen a

/-- What comes after some events is inside the first section: it has started, and no end has closed it. -/
def InSection (es : List Event) : Prop :=
  ∃ (a : List Event) (name : Text) (b : List Event), es = a ++ Event.start name :: b ∧
    Summary.isSection name = true ∧ a.any Event.namesSection = false ∧ ∀ w v, b = w ++ Event.stop :: v → ¬Balanced w

def HasContent (p : List Event → Prop) (es : List Event) : Prop :=
  ∃ (a : List Event) (e : Event) (b : List Event), es = a ++ e :: b ∧
    e.isContent (a.any Event.namesSection) = true ∧ p a

section Nesting

theorem Balanced.append {a b : List Event} (ha : Balanced a) (hb : Balanced b) : Balanced (a ++ b) := by
  induction ha with
  | nil => exact hb
  | leaf he _ ih => exact .leaf he ih
  | element name hinner _ _ ih =>
    rw [List.cons_append, List.append_assoc, List.cons_append]
    exact .element name hinner ih

def level (n : Nat) : List Event → Option Nat
  | [] => some n
  | .start _ :: es => level (n + 1) es
  | .stop :: es =>
    match n with
    | 0 => none
    | n + 1 => level n es
  | _ :: es => level n es

theorem level_leaf {e : Event} (he : e.isLeaf = true) (n : Nat) (es : List Event) : level n (e :: es) = level n es := by
  cases e with
  | start name => cases he
  | stop => cases he
  | _ => rfl

theorem level_append (n : Nat) (a b : List Event) : level n (a ++ b) = (level n a).bind (level · b) := by
  induction a generalizing n with
  | nil => rfl
  | cons e a ih =>
    by_cases he : e.isLeaf = true
    · rw [List.cons_append, level_leaf he, level_leaf he, ih]
    · cases e with
      | start name => exact ih (n + 1)
      | stop =>
        cases n with
        | zero => rfl
        | succ n => exact ih n
      | _ => exact absurd rfl he

theorem Balanced.level_eq {b : List Event} (h : Balanced b) (n : Nat) : level n b = some n := by
  induction h generalizing n with
  | nil => rfl
  | leaf he _ ih => rw [level_leaf he, ih]
  | element name _ _ ihinner ih =>
    rw [level, level_append, ihinner]
    exact ih n

inductive Opened : Nat → List Event → Prop
  | balanced {b : List Event} (h : Balanced b) : Opened 0 b
  | start {n : Nat} {a b : List Event} (name : Text) (ha : Opened n a) (hb : Balanced b) :
      Opened (n + 1) (a ++ .start name :: b)

namespace Opened

variable {n : Nat} {es : List Event}

theorem append {b : List Event} (h : Opened n es) (hb : Balanced b) : Opened n (es ++ b) := by
  cases h with
  | balanced h => exact .balanced (h.append hb)
  | start name ha h =>
    rw [List.append_assoc, List.cons_append]
    exact .start name ha (h.append hb)

theorem leaf {e : Event} (h : Opened n es) (he : e.isLeaf = true) : Opened n (es ++ [e]) :=
  h.append (.leaf he .nil)

theorem stop (h : Opened (n + 1) es) : Opened n (es ++ [Event.stop]) := by
  cases h with
  | start name ha hb =>
    rw [List.append_assoc, List.cons_append]
    exact ha.append (.element name hb .nil)

theorem level_eq (h : Opened n es) : level 0 es = some n := by
  induction h with
  | balanced h => exact h.level_eq 0
  | start name _ hb ih =>
    rw [level_append, ih]
    exact hb.level_eq _

theorem not_closed (h : Opened n es) {w v : List Event} (hes : es = w ++ .stop :: v) : ¬Balanced w := by
  intro hw
  have hlevel := h.level_eq
  rw [hes, level_append, hw.level_eq] at hlevel
  cases hlevel

theorem hasOpen (h : Opened (n + 1) es) : HasOpen es := by
  cases h with
  | start name _ hb => exact ⟨_, name, _, rfl, hb⟩

theorem pos_of_hasOpen (h : Opened n es) (hopen : HasOpen es) : 0 < n := by
  obtain ⟨a, name, b, rfl, hb⟩ := hopen
  have hlevel := h.level_eq
  rw [level_append] at hlevel
  obtain ⟨m, -, hm⟩ := Option.bind_eq_some_iff.mp hlevel
  rw [level, hb.level_eq] at hm
  have := Option.some.inj hm
  omega

end Opened

end Nesting

section Occurrences

theorem eq_append_concat_iff {α : Type} {es a b : List α} {e x : α} :
    es ++ [e] = a ++ x :: b ↔ (es = a ∧ e = x ∧ b = []) ∨ ∃ c, b = c ++ [e] ∧ es = a ++ x :: c := by
  constructor
  · intro h
    obtain rfl | ⟨c, y, rfl⟩ := b.eq_nil_or_concat'
    · obtain ⟨rfl, heq⟩ := List.append_inj' h rfl
      cases heq
      exact .inl ⟨rfl, rfl, rfl⟩
    · rw [← List.cons_append, ← List.append_assoc] at h
      obtain ⟨rfl, heq⟩ := List.append_inj' h rfl
      cases heq
      exact .inr ⟨c, rfl, rfl⟩
  · rintro (⟨rfl, rfl, rfl⟩ | ⟨c, rfl, rfl⟩)
    · rfl
    · simp

theorem not_hasContent_nil (p : List Event → Prop) : ¬HasContent p [] := by
  rintro ⟨a, e, b, h, -⟩
  simp at h

theorem hasContent_concat {p : List Event → Prop} {es : List Event} {e : Event} :
    HasContent p (es ++ [e]) ↔ HasContent p es ∨ (e.isContent (es.any Event.namesSection) = true ∧ p es) := by
  constructor
  · rintro ⟨a, x, b, h, hp⟩
    obtain ⟨rfl, rfl, rfl⟩ | ⟨c, rfl, rfl⟩ := eq_append_concat_iff.mp h
    · exact .inr hp
    · exact .inl ⟨a, x, c, rfl, hp⟩
  · rintro (⟨a, x, b, rfl, hp⟩ | hp)
    · exact ⟨a, x, b ++ [e], by simp, hp⟩
    · exact ⟨es, e, [], rfl, hp⟩

theorem Nested.of_concat {es : List Event} {e : Event} (h : Nested (es ++ [e])) : Nested es := by
  intro a b hes
  exact h a (b ++ [e]) (by simp [hes])

theorem Nested.concat {es : List Event} {e : Event} (h : Nested es) (he : e = .stop → HasOpen es) :
    Nested (es ++ [e]) := by
  intro a b hes
  obtain ⟨rfl, rfl, -⟩ | ⟨c, -, hc⟩ := eq_append_concat_iff.mp hes
  · exact he rfl
  · exact h a c hc

theorem not_namesSection_of_cut {a b c : List Event} {name : Text} (h : c.any Event.namesSection = false)
    (hc : c = a ++ .start name :: b) : Summary.isSection name = false := by
  rw [hc, List.any_append, List.any_cons, Bool.or_eq_false_iff, Bool.or_eq_false_iff] at h
  exact h.2.1

theorem first_section_unique {a b a' b' : List Event} {name name' : Text}
    (h : a ++ .start name :: b = a' ++ .start name' :: b') (hname : Summary.isSection name = true)
    (ha : a.any Event.namesSection = false) (hname' : Summary.isSection name' = true)
    (ha' : a'.any Event.namesSection = false) : b = b' := by
  obtain ⟨c, hc, hrest⟩ | ⟨c, hc, hrest⟩ := List.append_eq_append_iff.mp h
  · obtain ⟨rfl, heq⟩ | ⟨c, rfl, -⟩ := List.cons_eq_append_iff.mp hrest
    · cases heq
      rfl
    · rw [not_namesSection_of_cut ha' hc] at hname
      cases hname
  · obtain ⟨rfl, heq⟩ | ⟨c, rfl, -⟩ := List.cons_eq_append_iff.mp hrest
    · cases heq
      rfl
    · rw [not_namesSection_of_cut ha hc] at hname'
      cases hname'

theorem InSection.of_concat {es : List Event} {e : Event} (h : InSection (es ++ [e])) :
    InSection es ∨ ∃ name, e = .start name ∧ Summary.isSection name = true ∧ es.any Event.namesSection = false := by
  obtain ⟨a, name, b, hes, hname, ha, hb⟩ := h
  obtain ⟨rfl, rfl, -⟩ | ⟨c, rfl, rfl⟩ := eq_append_concat_iff.mp hes
  · exact .inr ⟨name, rfl, hname, ha⟩
  · exact .inl ⟨a, name, c, rfl, hname, ha, fun w v hc => hb w (v ++ [e]) (by simp [hc])⟩

end Occurrences

namespace Summary

theorem isSection_of_isReference {name : Text} (h : isReference name = true) : isSection name = false := by
  rw [isReference, beq_iff_eq] at h
  rw [isSection, h]
  decide

section Steps

variable (s : Summary)

theorem step_start (name : Text) : s.step (.start name) =
    { s with
      inherits := s.inherits || isReference name
      hasSection := s.hasSection || isSection name
      openSection := if isSection name && !s.hasSection then some s.depth else s.openSection
      depth := s.depth + 1 } := by
  by_cases href : isReference name = true
  · simp [step, href, isSection_of_isReference href]
  · cases hsection : isSection name <;> cases hseen : s.hasSection <;> simp [step, href, hsection, hseen]

theorem step_leaf {e : Event} (he : e.isLeaf = true) : s.step e =
    { s with
      inherits := s.inherits || e.refers
      hasSection := s.hasSection || e.namesSection
      bodyContent := s.bodyContent || e.isContent s.hasSection
      sectionContent := s.sectionContent || (e.isContent s.hasSection && s.openSection.isSome) } := by
  have htext (t : Text) : (if t.all isBlank then s else s.addContent) =
      { s with
        bodyContent := s.bodyContent || !t.all isBlank
        sectionContent := s.sectionContent || (!t.all isBlank && s.openSection.isSome) } := by
    cases t.all isBlank <;> simp [addContent]
  cases e with
  | start name => cases he
  | stop => cases he
  | other => simp [step, Event.refers, Event.namesSection, Event.name?, Event.isContent]
  | text t => simpa [step, Event.refers, Event.namesSection, Event.name?, Event.isContent] using htext t
  | data t => simpa [step, Event.refers, Event.namesSection, Event.name?, Event.isContent] using htext t
  | empty name =>
    by_cases href : isReference name = true
    · simp [step, Event.refers, Event.namesSection, Event.name?, Event.isContent, href, isSection_of_isReference href]
    · cases hsection : isSection name <;> cases hseen : s.hasSection <;>
        simp [step, addContent, Event.refers, Event.namesSection, Event.name?, Event.isContent, href, hsection, hseen]

end Steps

def SectionOpen (d k : Nat) (es : List Event) : Prop :=
  ∃ a name b, es = a ++ .start name :: b ∧ isSection name = true ∧ a.any Event.namesSection = false ∧ Opened d a ∧
    Opened k b

theorem SectionOpen.inSection {d k : Nat} {es : List Event} (h : SectionOpen d k es) : InSection es := by
  obtain ⟨a, name, b, hes, hname, hfirst, -, hb⟩ := h
  exact ⟨a, name, b, hes, hname, hfirst, fun w v => hb.not_closed⟩

structure Tracks (es : List Event) (s : Summary) : Prop where
  inherits : s.inherits = es.any Event.refers
  hasSection : s.hasSection = es.any Event.namesSection
  bodyContent : s.bodyContent = true ↔ HasContent (fun _ => True) es
  sectionContent : s.sectionContent = true ↔ HasContent InSection es
  opened : Opened s.depth es
  openSection : ∀ d, s.openSection = some d → ∃ k, SectionOpen d k es ∧ s.depth = d + 1 + k
  noSection : s.openSection = none → ¬InSection es

theorem tracks_nil : Tracks [] {} where
  inherits := rfl
  hasSection := rfl
  bodyContent := iff_of_false Bool.false_ne_true (not_hasContent_nil _)
  sectionContent := iff_of_false Bool.false_ne_true (not_hasContent_nil _)
  opened := .balanced .nil
  openSection d h := by cases h
  noSection _ := by
    rintro ⟨a, name, b, h, -⟩
    simp at h

namespace Tracks

variable {es : List Event} {s : Summary}

theorem isSome_openSection (h : Tracks es s) : s.openSection.isSome = true ↔ InSection es := by
  cases hopen : s.openSection with
  | none => exact iff_of_false Bool.false_ne_true (h.noSection hopen)
  | some d =>
    obtain ⟨k, hsection, -⟩ := h.openSection d hopen
    exact iff_of_true rfl hsection.inSection

theorem leaf (h : Tracks es s) {e : Event} (he : e.isLeaf = true) : Tracks (es ++ [e]) (s.step e) := by
  rw [step_leaf s he]
  refine ⟨?_, ?_, ?_, ?_, h.opened.leaf he, ?_, ?_⟩
  · simp [h.inherits]
  · simp [h.hasSection]
  · simp [hasContent_concat, ← h.bodyContent, h.hasSection]
  · simp [hasContent_concat, ← h.sectionContent, ← h.isSome_openSection, h.hasSection]
  · intro d hd
    obtain ⟨k, ⟨a, name, b, rfl, hname, hfirst, ha, hb⟩, hdepth⟩ := h.openSection d hd
    exact ⟨k, ⟨a, name, b ++ [e], by simp, hname, hfirst, ha, hb.leaf he⟩, hdepth⟩
  · intro hnone hin
    obtain hin | ⟨name, rfl, -⟩ := hin.of_concat
    · exact h.noSection hnone hin
    · cases he

theorem start (h : Tracks es s) (name : Text) : Tracks (es ++ [Event.start name]) (s.step (.start name)) := by
  rw [step_start]
  refine ⟨?_, ?_, ?_, ?_, .start name h.opened .nil, ?_, ?_⟩
  · simp [h.inherits, Event.refers, Event.name?]
  · simp [h.hasSection, Event.namesSection, Event.name?]
  · simp [hasContent_concat, ← h.bodyContent, Event.isContent]
  · simp [hasContent_concat, ← h.sectionContent, Event.isContent]
  · intro d hd
    dsimp only at hd ⊢
    split at hd
    · rename_i hnew
      simp only [Bool.and_eq_true, Bool.not_eq_true', h.hasSection] at hnew
      cases hd
      exact ⟨0, ⟨es, name, [], rfl, hnew.1, hnew.2, h.opened, .balanced .nil⟩, rfl⟩
    · obtain ⟨k, ⟨a, first, b, rfl, hfirst, ha, hb, hk⟩, hdepth⟩ := h.openSection d hd
      refine ⟨k + 1, ⟨a, first, b ++ [.start name], by simp, hfirst, ha, hb, .start name hk .nil⟩, ?_⟩
      omega
  · intro hnone hin
    dsimp only at hnone
    split at hnone
    · cases hnone
    · rename_i hold
      obtain hin | ⟨name', heq, hname, hnew⟩ := hin.of_concat
      · exact h.noSection hnone hin
      · cases heq
        simp [hname, h.hasSection, hnew] at hold

theorem stop (h : Tracks es s) (hopen : HasOpen es) : Tracks (es ++ [Event.stop]) (s.step .stop) := by
  obtain ⟨n, hn⟩ := Nat.exists_eq_add_one.mpr (h.opened.pos_of_hasOpen hopen)
  have hopened : Opened (n + 1) es := hn ▸ h.opened
  have hstep : s.step .stop =
      { s with depth := n, openSection := if s.openSection == some n then none else s.openSection } := by
    simp [step, hn]
  rw [hstep]
  refine ⟨?_, ?_, ?_, ?_, hopened.stop, ?_, ?_⟩
  · simp [h.inherits, Event.refers, Event.name?]
  · simp [h.hasSection, Event.namesSection, Event.name?]
  · simp [hasContent_concat, ← h.bodyContent, Event.isContent]
  · simp [hasContent_concat, ← h.sectionContent, Event.isContent]
  · intro d hd
    dsimp only at hd ⊢
    split at hd
    · cases hd
    · rename_i hinner
      obtain ⟨k, ⟨a, name, b, rfl, hname, ha, hb, hk⟩, hdepth⟩ := h.openSection d hd
      -- Were no element open inside the section, the end would be its own.
      obtain ⟨j, rfl⟩ : ∃ j, k = j + 1 := by
        refine Nat.exists_eq_add_one.mpr (Nat.pos_of_ne_zero ?_)
        rintro rfl
        simp [hd, show d = n by omega] at hinner
      exact ⟨j, ⟨a, name, b ++ [.stop], by simp, hname, ha, hb, hk.stop⟩, by omega⟩
  · intro hnone hin
    dsimp only at hnone
    split at hnone
    · rename_i hown
      obtain ⟨k, ⟨a, name, b, rfl, hname, ha, -, hk⟩, hdepth⟩ := h.openSection n (beq_iff_eq.mp hown)
      obtain rfl : k = 0 := by omega
      obtain ⟨a', name', b', heq, hname', ha', hclosed⟩ := hin
      rw [List.append_assoc, List.cons_append] at heq
      have hb' := first_section_unique heq hname ha hname' ha'
      cases hk with
      | balanced hb => exact hclosed b [] hb'.symm hb
    · obtain hin | ⟨name, heq, -⟩ := hin.of_concat
      · exact h.noSection hnone hin
      · cases heq

end Tracks

theorem tracks_ofEvents {es : List Event} (h : Nested es) : Tracks es (ofEvents es) := by
  induction es using List.reverseRecOn with
  | nil => exact tracks_nil
  | append_singleton es e ih =>
    have hes := ih h.of_concat
    rw [ofEvents, List.foldl_append]
    change Tracks (es ++ [e]) ((ofEvents es).step e)
    cases e with
    | start name => exact hes.start name
    | stop => exact hes.stop (h es [] rfl)
    | empty name => exact hes.leaf rfl
    | text t => exact hes.leaf rfl
    | data t => exact hes.leaf rfl
    | other => exact hes.leaf rfl

end Summary

section Reading

theorem isLeaf_of_declaration? {t rest : Text} {e : Event} (h : declaration? t = some (e, rest)) : e.isLeaf = true := by
  unfold declaration? at h
  split at h
  · obtain ⟨p, -, heq⟩ := Option.map_eq_some_iff.mp h
    cases heq
    rfl
  · obtain ⟨cs, -, hcs⟩ := Option.bind_eq_some_iff.mp h
    obtain ⟨p, -, heq⟩ := Option.map_eq_some_iff.mp hcs
    cases heq
    rfl
  · split at h
    · obtain ⟨p, -, hp⟩ := Option.bind_eq_some_iff.mp h
      dsimp only at hp
      split at hp
      · cases hp
        rfl
      · cases hp
    · cases h
  · cases h

theorem isLeaf_of_instruction? {t rest : Text} {e : Event} (h : instruction? t = some (e, rest)) : e.isLeaf = true := by
  unfold instruction? at h
  split at h
  · cases h
    rfl
  · cases h

theorem tag?_cases {opened opened' : List Text} {t rest : Text} {e : Event}
    (h : tag? opened t = some (e, opened', rest)) :
    (e.isLeaf = true ∧ opened' = opened) ∨ (∃ name, e = .start name ∧ opened' = name :: opened) ∨
      e = .stop ∧ ∃ name, opened = name :: opened' := by
  unfold tag? at h
  split at h
  · obtain ⟨p, hp, heq⟩ := Option.map_eq_some_iff.mp h
    cases heq
    exact .inl ⟨isLeaf_of_declaration? hp, rfl⟩
  · obtain ⟨p, hp, heq⟩ := Option.map_eq_some_iff.mp h
    cases heq
    exact .inl ⟨isLeaf_of_instruction? hp, rfl⟩
  · obtain ⟨⟨body, rest'⟩, -, hbody⟩ := Option.bind_eq_some_iff.mp h
    dsimp only at hbody
    split at hbody
    · split at hbody
      · split at hbody
        · cases hbody
          exact .inr (.inr ⟨rfl, _, rfl⟩)
        · cases hbody
      · cases hbody
    · split at hbody
      · cases hbody
        exact .inl ⟨rfl, rfl⟩
      · cases hbody
        exact .inr (.inl ⟨_, rfl, rfl⟩)

theorem nested_append_eventsFrom {n : Nat} {opened : List Text} {t : Text} {front es : List Event}
    (h : eventsFrom n opened t = some es) (hfront : Nested front) (hopened : Opened opened.length front) :
    Nested (front ++ es) := by
  induction n generalizing opened t front es with
  | zero => cases h
  | succ n ih =>
    cases t with
    | nil =>
      cases h
      rwa [List.append_nil]
    | cons c cs =>
      rw [eventsFrom] at h
      split at h
      · obtain ⟨⟨e, opened', rest⟩, htag, h⟩ := Option.bind_eq_some_iff.mp h
        obtain ⟨es', hes', heq⟩ := Option.bind_eq_some_iff.mp h
        cases heq
        rw [← List.singleton_append, ← List.append_assoc]
        obtain ⟨he, rfl⟩ | ⟨name, rfl, rfl⟩ | ⟨rfl, name, rfl⟩ := tag?_cases htag
        · refine ih hes' (hfront.concat ?_) (hopened.leaf he)
          rintro rfl
          cases he
        · exact ih hes' (hfront.concat (fun heq => by cases heq)) (.start name hopened .nil)
        · exact ih hes' (hfront.concat (fun _ => hopened.hasOpen)) hopened.stop
      · obtain ⟨es', hes', heq⟩ := Option.bind_eq_some_iff.mp h
        cases heq
        rw [← List.singleton_append, ← List.append_assoc]
        exact ih hes' (hfront.concat (fun heq => by cases heq)) (hopened.leaf rfl)

theorem nested_events {t : Text} {es : List Event} (h : events? t = some es) : Nested es := by
  refine nested_append_eventsFrom h ?_ (.balanced .nil)
  intro a b hes
  simp at hes

end Reading

/-- The summary of events that nest says of their elements what it is meant to say: whether one is a reference, whether
one is a section, whether there is content inside the first section, and whether there is any content. The events of a
text nest. -/
theorem summary_of_elements :
    (∀ es, Nested es →
      let s := Summary.ofEvents es
      (s.inherits = true ↔ ∃ e ∈ es, e.refers = true) ∧
        (s.hasSection = true ↔ ∃ e ∈ es, e.namesSection = true) ∧
        (s.sectionContent = true ↔ HasContent InSection es) ∧
        (s.bodyContent = true ↔ HasContent (fun _ => True) es) ∧
        s.isSatisfied =
          if s.inherits then true else if s.hasSection then s.sectionContent else s.bodyContent) ∧
      ∀ t es, events? t = some es → Nested es := by
  refine ⟨fun es h => ?_, fun t es => nested_events⟩
  have htracks := Summary.tracks_ofEvents h
  refine ⟨?_, ?_, htracks.sectionContent, htracks.bodyContent, ?_⟩
  · rw [htracks.inherits, List.any_eq_true]
  · rw [htracks.hasSection, List.any_eq_true]
  · rw [Summary.isSatisfied]
    cases (Summary.ofEvents es).inherits <;> rfl

def hollow : List Event :=
  [.start ['r'], .start "summary".toList, .start ['p'], .stop, .stop, .text ['x'], .empty "content".toList]

theorem summary_of_elements_hollow :
    events? "<r><summary><p></p></summary>x<content/>".toList = some hollow ∧ Nested hollow ∧
      ¬HasContent InSection hollow ∧ HasContent (fun _ => True) hollow ∧
      (Summary.ofEvents hollow).isSatisfied = false := by
  obtain ⟨hsummary, hnested⟩ := summary_of_elements
  have hread : events? "<r><summary><p></p></summary>x<content/>".toList = some hollow := by decide +kernel
  have h := hnested _ _ hread
  obtain ⟨-, -, hsection, hbody, hsatisfied⟩ := hsummary hollow h
  refine ⟨hread, h, ?_, hbody.mp (by decide), hsatisfied.trans (by decide)⟩
  rw [← hsection]
  decide

end Lintel.Markup
