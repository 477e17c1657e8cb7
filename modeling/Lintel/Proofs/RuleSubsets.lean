import Lintel.Proofs.DispatchOrder

namespace Lintel

theorem flatMap_filter_of_mem {α β : Type} {p : α → Bool} {q : β → Bool} {f : α → List β}
    (h : ∀ x, ∀ y ∈ f x, q y = p x) (l : List α) : (l.filter p).flatMap f = (l.flatMap f).filter q := by
  induction l with
  | nil => rfl
  | cons x l ih =>
    rw [List.flatMap_cons, List.filter_append, ← ih]
    cases hp : p x
    · have hnone : (f x).filter q = [] :=
        List.filter_eq_nil_iff.mpr (fun y hy => by rw [h x y hy, hp]; exact Bool.false_ne_true)
      rw [List.filter_cons_of_neg (by simp [hp]), hnone, List.nil_append]
    · have hall : (f x).filter q = f x := List.filter_eq_self.mpr (fun y hy => (h x y hy).trans hp)
      rw [List.filter_cons_of_pos hp, List.flatMap_cons, hall]

namespace Registry

theorem rulesFor_of_filter {g g' : Registry} {p : Rule → Bool} (h : g'.rules = g.rules.filter p) (k : Kind) :
    g'.rulesFor k = (g.rulesFor k).filter p := by
  rw [rulesFor, rulesFor, h]
  apply flatMap_filter_of_mem
  intro r q hq
  obtain ⟨_, -, rfl⟩ := List.mem_map.mp hq
  rfl

end Registry

namespace RuleSelection

theorem firstOfEach_filter_id (p : String → Bool) (rs : List Rule) :
    firstOfEach (rs.filter (fun r => p r.id)) = (firstOfEach rs).filter (fun r => p r.id) := by
  induction rs using List.reverseRecOn with
  | nil => rfl
  | append_singleton rs r ih =>
    rw [List.filter_append, firstOfEach_append, addNew, any_firstOfEach]
    cases hp : p r.id
    · rw [List.filter_singleton, hp, cond_false, List.append_nil, ih]
      split
      · rfl
      · simp [hp]
    · have hsame : (rs.filter (fun r => p r.id)).any (·.id == r.id) = rs.any (·.id == r.id) := by
        rw [List.any_filter]
        apply List.any_congr rfl
        intro q
        by_cases hid : q.id = r.id
        · simp [hid, hp]
        · simp [hid]
      rw [List.filter_singleton, hp, cond_true, firstOfEach_append, addNew, any_firstOfEach, hsame, ih]
      split
      · rfl
      · simp [hp]

theorem build_of_filter {s : RuleSelection} (s' : RuleSelection) {compile : String → Option (Text → Bool)}
    {g : Registry}
    {p : String → Bool} (h : s.build compile = .ok g) (hexempts : s'.exemptions compile = s.exemptions compile)
    (hrules : s'.rules = s.rules)
    (hadmits : ∀ r, s'.admits r = (s.admits r && p r.id)) :
    ∃ g', s'.build compile = .ok g' ∧ g'.exempts = g.exempts ∧ g'.rules = g.rules.filter (fun r => p r.id) := by
  obtain ⟨hex, hg⟩ := build_eq_ok h
  refine ⟨⟨s'.settings, firstOfEach (s'.rules.filter s'.admits), g.exempts⟩, ?_, rfl, ?_⟩
  · rw [build, hexempts, hex]
    rfl
  · rw [hg, ← firstOfEach_filter_id, List.filter_filter, ← hrules]
    apply congrArg firstOfEach
    apply List.filter_congr
    intro r _
    rw [hadmits, Bool.and_comm]

end RuleSelection

namespace Severities

theorem get?_put (s : Severities) (rule id : String) (v : Severity) :
    get? id (s.put rule v) = if rule = id then some v else get? id s := by
  unfold put
  split
  · rename_i hany
    -- Replacing a severity keeps the rules, so the same entry is found.
    have hrule : (fun e : String × Severity => e.1 == id) ∘ (fun e => if e.1 == rule then (rule, v) else e) =
        fun e => e.1 == id := by
      funext e
      by_cases he : e.1 = rule <;> simp [he]
    rw [get?, List.find?_map, hrule, get?]
    cases hfind : s.find? (·.1 == id) with
    | none =>
      have hne : rule ≠ id := by
        rintro rfl
        obtain ⟨e, he, hr⟩ := List.any_eq_true.mp hany
        exact List.find?_eq_none.mp hfind e he hr
      simp [hne]
    | some e =>
      have he : e.1 = id := by simpa using List.find?_some hfind
      by_cases hid : rule = id
      · simp [he, hid]
      · simp [he, hid, Ne.symm hid]
  · rename_i hany
    rw [get?, List.find?_append, get?]
    by_cases hid : rule = id
    · have hnone : s.find? (·.1 == id) = none :=
        List.find?_eq_none.mpr (fun e he hr => hany (List.any_eq_true.mpr ⟨e, he, hid ▸ hr⟩))
      simp [hnone, hid]
    · simp [hid]

end Severities

namespace Settings

def turnOff (s : Settings) (ids : List String) : Settings :=
  ids.foldl (fun s id => s.withRule id .off) s

theorem isEnabled_withRule (s : Settings) (rule id : String) :
    (s.withRule rule .off).isEnabled id = (s.isEnabled id && !(rule == id)) := by
  have hget : (s.withRule rule .off).severity? id = if rule = id then some .off else s.severity? id := by
    rw [severity?, withRule, Option.bind_some, Severities.get?_put, severity?]
    cases s.rules with
    | none => rfl
    | some r => rfl
  rw [isEnabled, hget, isEnabled]
  by_cases h : rule = id <;> simp [h]

theorem isEnabled_turnOff (s : Settings) (ids : List String) (id : String) :
    (s.turnOff ids).isEnabled id = (s.isEnabled id && !ids.contains id) := by
  induction ids generalizing s with
  | nil => simp [turnOff]
  | cons rule ids ih =>
    refine (ih (s.withRule rule .off)).trans ?_
    rw [isEnabled_withRule, List.contains_cons, Bool.not_or, Bool.and_assoc, Bool.beq_comm]

theorem patterns_turnOff (s : Settings) (ids : List String) : (s.turnOff ids).patterns = s.patterns := by
  induction ids generalizing s with
  | nil => rfl
  | cons id ids ih => exact ih (s.withRule id .off)

end Settings

namespace Dispatch

variable {d d' : Dispatch} {source : Source}

def produced (d : Dispatch) (source : Source) : List (Rule × Finding) :=
  ((Zipper.ofRoot source.tree).preorder.flatMap d.checksAt).flatMap (fun x => (d.findings source x).map (x.2, ·))

theorem isOk_of_mapM {z : Zipper} {rs : List Rule} {vs : List Verdict}
    (h : rs.mapM (runCheck ⟨source, d.registry.exempts⟩ z) = .ok vs) : ∀ r ∈ rs, (d.answer source (z, r)).isOk := by
  induction rs generalizing vs with
  | nil => simp
  | cons r rs ih =>
    rw [List.mapM_cons] at h
    have hr : (d.answer source (z, r)).isOk := by
      cases ha : d.answer source (z, r) with
      | ok v => rfl
      | error a =>
        rw [runCheck_of_error ha] at h
        cases h
    cases hv : runCheck ⟨source, d.registry.exempts⟩ z r with
    | error f =>
      rw [hv] at h
      cases h
    | ok v =>
      cases hvs : rs.mapM (runCheck ⟨source, d.registry.exempts⟩ z) with
      | error f =>
        rw [hv, hvs] at h
        cases h
      | ok vs =>
        intro q hq
        obtain rfl | hq := List.mem_cons.mp hq
        · exact hr
        · exact ih hvs q hq

theorem visit_eq_ok {z : Zipper} {fs : List Finding} (h : d.visit source z = .ok fs) :
    ∀ x ∈ d.checksAt z, (d.answer source x).isOk := by
  intro x hx
  obtain ⟨r, hr, rfl⟩ := List.mem_map.mp hx
  rw [visit] at h
  cases hvs : (d.rulesFor z.kind).mapM (runCheck ⟨source, d.registry.exempts⟩ z) with
  | error f =>
    rw [hvs] at h
    cases h
  | ok vs => exact isOk_of_mapM hvs r hr

theorem collectFrom_eq_ok {n : Nat} {zs : List Zipper} {fs : List Finding}
    (h : d.collectFrom source false n zs = .ok fs) : ∀ z ∈ zs, ∀ x ∈ d.checksAt z, (d.answer source x).isOk := by
  induction zs generalizing n fs with
  | nil => simp
  | cons z zs ih =>
    rw [collectFrom, if_neg (by simp)] at h
    cases hz : d.visit source z with
    | error f =>
      rw [hz] at h
      cases h
    | ok found =>
      cases hzs : d.collectFrom source false (n + 1) zs with
      | error f =>
        rw [hz, hzs] at h
        cases h
      | ok rest =>
        intro y hy
        obtain rfl | hy := List.mem_cons.mp hy
        · exact visit_eq_ok hz
        · exact ih hzs y hy

theorem collect_eq_ok_iff {cancelled : Bool} {fs : List Finding} :
    d.collect source cancelled = .ok fs ↔
      cancelled = false ∧
        (∀ z ∈ (Zipper.ofRoot source.tree).preorder, ∀ x ∈ d.checksAt z, (d.answer source x).isOk) ∧
        fs = (d.produced source).map (·.2) := by
  have hproduced : (d.produced source).map (·.2) =
      ((Zipper.ofRoot source.tree).preorder.flatMap d.checksAt).flatMap (d.findings source) := by
    simp [produced, List.map_flatMap, Function.comp_def]
  have hok (h : ∀ z ∈ (Zipper.ofRoot source.tree).preorder, ∀ x ∈ d.checksAt z, (d.answer source x).isOk) :
      d.collect source false = .ok ((d.produced source).map (·.2)) := by
    rw [collect, collectFrom_eq_mapM, script_of_ok h, mapM_map_ok, hproduced]
  constructor
  · intro h
    have hgo : cancelled = false := by
      cases cancelled with
      | false => rfl
      | true =>
        -- A run looks whether to stop before its first element.
        rw [collect] at h
        cases hzs : (Zipper.ofRoot source.tree).preorder <;> rw [hzs, collectFrom, if_pos (by simp [polls])]
          at h <;> cases h
    subst hgo
    have hall := collectFrom_eq_ok h
    exact ⟨rfl, hall, Except.ok.inj (h.symm.trans (hok hall))⟩
  · rintro ⟨rfl, hall, rfl⟩
    exact hok hall

theorem collect_of_filter {p : Rule → Bool} (hrules : ∀ k, d'.rulesFor k = (d.rulesFor k).filter p)
    (hexempts : d'.registry.exempts = d.registry.exempts) {cancelled : Bool} {fs : List Finding}
    (h : d.collect source cancelled = .ok fs) :
    d'.collect source cancelled = .ok (((d.produced source).filter (fun x => p x.1)).map (·.2)) := by
  obtain ⟨rfl, hall, -⟩ := collect_eq_ok_iff.mp h
  have hchecks (z : Zipper) : d'.checksAt z = (d.checksAt z).filter (fun x => p x.2) := by
    rw [checksAt, checksAt, hrules, List.filter_map]
    rfl
  have hanswer (x : Zipper × Rule) : d'.answer source x = d.answer source x := by rw [answer, answer, hexempts]
  have hfindings : d'.findings source = d.findings source := by
    funext x
    rw [findings, findings, hanswer]
  have hproduced : d'.produced source = (d.produced source).filter (fun x => p x.1) := by
    rw [produced, produced, hfindings, funext hchecks, ← List.filter_flatMap]
    apply flatMap_filter_of_mem
    intro x y hy
    obtain ⟨f, -, rfl⟩ := List.mem_map.mp hy
    rfl
  refine collect_eq_ok_iff.mpr ⟨rfl, fun z hz x hx => ?_, by rw [hproduced]⟩
  rw [hchecks] at hx
  rw [hanswer]
  exact hall z hz x (List.mem_of_mem_filter hx)

/-- If a run of all rules succeeds, it gives what they produce. A run restricted to some ids, a run with a registry for
these ids only, and a run with a registry in whose settings the other ids are off succeed too and give what the rules
with these ids produce. The tables of the smaller registries hold the rules of the restricted run. -/
theorem selections_agree {settings : Settings} {rules : List Rule} {exempts : Option (Declaration → Bool)}
    {compile : String → Option (Text → Bool)} {g : Registry}
    (hg : RuleSelection.build ⟨settings, rules, none, exempts⟩ compile = .ok g) {source : Source} {cancelled : Bool}
    {fs : List Finding} (hfs : collect ⟨g, none⟩ source cancelled = .ok fs) (ids : List String) {off : List String}
    (hoff : ∀ id ∈ g.ids, id ∈ off ↔ id ∉ ids) :
    let found := produced ⟨g, none⟩ source
    let chosen := (found.filter (fun x => ids.contains x.1.id)).map (·.2)
    fs = found.map (·.2) ∧
      collect ⟨g, some ids⟩ source cancelled = .ok chosen ∧
      ∃ g₁ g₂, RuleSelection.build ⟨settings, rules, some ids, exempts⟩ compile = .ok g₁ ∧
        RuleSelection.build ⟨settings.turnOff off, rules, none, exempts⟩ compile = .ok g₂ ∧
        collect ⟨g₁, none⟩ source cancelled = .ok chosen ∧
        collect ⟨g₂, none⟩ source cancelled = .ok chosen ∧
        ∀ k, g₁.lookUp k = rulesFor ⟨g, some ids⟩ k ∧ g₂.lookUp k = rulesFor ⟨g, some ids⟩ k := by
  intro found chosen
  have hfull (g' : Registry) (k : Kind) : rulesFor ⟨g', none⟩ k = g'.rulesFor k := by
    rw [rulesFor]
    exact List.filter_eq_self.mpr (fun _ _ => rfl)
  have hrestricted (k : Kind) :
      rulesFor ⟨g, some ids⟩ k = (rulesFor ⟨g, none⟩ k).filter (fun r => ids.contains r.id) := by
    rw [hfull]
    rfl
  have hsmaller {g' : Registry} (hrules : g'.rules = g.rules.filter (fun r => ids.contains r.id))
      (hexempts : g'.exempts = g.exempts) :
      collect ⟨g', none⟩ source cancelled = .ok chosen ∧ ∀ k, g'.lookUp k = rulesFor ⟨g, some ids⟩ k := by
    have hrulesFor (k : Kind) : rulesFor ⟨g', none⟩ k = rulesFor ⟨g, some ids⟩ k := by
      rw [hrestricted, hfull, hfull, Registry.rulesFor_of_filter hrules]
    refine ⟨collect_of_filter (fun k => (hrulesFor k).trans (hrestricted k)) hexempts hfs, fun k => ?_⟩
    rw [Registry.lookUp_eq_rulesFor, ← hrulesFor, hfull]
  obtain ⟨g₁, hg₁, hexempts₁, hrules₁⟩ := RuleSelection.build_of_filter ⟨settings, rules, some ids, exempts⟩
    (p := fun id => ids.contains id) hg rfl rfl (fun r => by simp [RuleSelection.admits])
  obtain ⟨g₂, hg₂, hexempts₂, hrules₂⟩ := RuleSelection.build_of_filter ⟨settings.turnOff off, rules, none, exempts⟩
    (p := fun id => !off.contains id) hg (by simp [RuleSelection.exemptions, Settings.patterns_turnOff]) rfl
    (fun r => by simp [RuleSelection.admits, Settings.isEnabled_turnOff])
  have hsame : g.rules.filter (fun r => !off.contains r.id) = g.rules.filter (fun r => ids.contains r.id) := by
    apply List.filter_congr
    intro r hr
    have hid := hoff r.id (List.mem_map_of_mem hr)
    by_cases hmem : r.id ∈ ids
    · have hon : r.id ∉ off := fun h => hid.mp h hmem
      simp [hmem, hon]
    · simp [hmem, hid.mpr hmem]
  obtain ⟨hcollect₁, hlookUp₁⟩ := hsmaller hrules₁ hexempts₁
  obtain ⟨hcollect₂, hlookUp₂⟩ := hsmaller (hrules₂.trans hsame) hexempts₂
  exact ⟨(collect_eq_ok_iff.mp hfs).2.2, collect_of_filter hrestricted rfl hfs, g₁, g₂, hg₁, hg₂, hcollect₁, hcollect₂,
    fun k => ⟨hlookUp₁ k, hlookUp₂ k⟩⟩

def echoing : Rule :=
  { marking with id := "echo", kinds := [.exprStmt, .ident] }

def echoed : List Rule :=
  [marking, echoing, { marking with kinds := [.exprStmt] }]

def echoedRegistry : Registry :=
  ⟨{}, [marking, echoing], RuleSelection.byPatterns []⟩

def markAt (start length : Nat) : Finding :=
  ⟨"mark", ⟨start, length⟩, [], [], false⟩

theorem selections_agree_echoed :
    RuleSelection.build ⟨{}, echoed, none, none⟩ = .ok echoedRegistry ∧
      collect ⟨echoedRegistry, none⟩ twoNames false =
        .ok [markAt 0 2, markAt 0 1, markAt 0 1, markAt 0 1, markAt 1 1, markAt 1 1, markAt 1 1] ∧
      collect ⟨echoedRegistry, some ["echo"]⟩ twoNames false = .ok [markAt 0 2, markAt 0 1, markAt 1 1] ∧
      ∃ g₁ g₂, RuleSelection.build ⟨{}, echoed, some ["echo"], none⟩ = .ok g₁ ∧
        RuleSelection.build ⟨Settings.turnOff {} ["mark"], echoed, none, none⟩ = .ok g₂ ∧
        collect ⟨g₁, none⟩ twoNames false = .ok [markAt 0 2, markAt 0 1, markAt 1 1] ∧
        collect ⟨g₂, none⟩ twoNames false = .ok [markAt 0 2, markAt 0 1, markAt 1 1] := by
  have hbuild : RuleSelection.build ⟨{}, echoed, none, none⟩ = .ok echoedRegistry := rfl
  have hall : collect ⟨echoedRegistry, none⟩ twoNames false =
      .ok [markAt 0 2, markAt 0 1, markAt 0 1, markAt 0 1, markAt 1 1, markAt 1 1, markAt 1 1] := rfl
  have hoff : ∀ id ∈ echoedRegistry.ids, id ∈ ["mark"] ↔ id ∉ ["echo"] := by decide
  obtain ⟨-, hrestricted, g₁, g₂, hg₁, hg₂, hcollect₁, hcollect₂, -⟩ := selections_agree hbuild hall ["echo"] hoff
  exact ⟨hbuild, hall, hrestricted, g₁, g₂, hg₁, hg₂, hcollect₁, hcollect₂⟩

end Dispatch

end Lintel
