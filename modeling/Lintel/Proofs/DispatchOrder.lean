import Lintel.Proofs.BuiltinBatch
import Lintel.Proofs.KindTables
import Lintel.Proofs.LayeredSettings

namespace Lintel

namespace RuleSelection

def chosen (s : RuleSelection) : List Rule :=
  (s.rules.zipIdx.filter (fun x => s.admits x.1 && !(s.rules.take x.2).any (·.id == x.1.id))).map (·.1)

theorem admits_congr (s : RuleSelection) {q r : Rule} (h : q.id = r.id) : s.admits q = s.admits r := by
  rw [admits, admits, h]

theorem firstOfEach_append (rs : List Rule) (r : Rule) :
    firstOfEach (rs ++ [r]) = addNew (·.id) (firstOfEach rs) r := by
  rw [firstOfEach, List.foldl_append]
  rfl

theorem any_firstOfEach (rs : List Rule) (id : String) : (firstOfEach rs).any (·.id == id) = rs.any (·.id == id) :=
  any_foldl_addNew [] rs id

theorem filter_zipIdx_append (s : RuleSelection) (rs : List Rule) (r : Rule) :
    ((rs ++ [r]).zipIdx.filter (fun x => s.admits x.1 && !((rs ++ [r]).take x.2).any (·.id == x.1.id))).map (·.1) =
      (rs.zipIdx.filter (fun x => s.admits x.1 && !(rs.take x.2).any (·.id == x.1.id))).map (·.1) ++
        if s.admits r && !rs.any (·.id == r.id) then [r] else [] := by
  have hfront : rs.zipIdx.filter (fun x => s.admits x.1 && !((rs ++ [r]).take x.2).any (·.id == x.1.id)) =
      rs.zipIdx.filter (fun x => s.admits x.1 && !(rs.take x.2).any (·.id == x.1.id)) := by
    apply List.filter_congr
    intro x hx
    have hlt : x.2 < rs.length := by
      obtain ⟨-, hlt, -⟩ := List.mem_zipIdx hx
      omega
    rw [List.take_append_of_le_length (by omega)]
  rw [List.zipIdx_append, List.filter_append, hfront, List.map_append]
  congr 1
  simp only [List.zipIdx_singleton, Nat.zero_add, List.filter_singleton, List.take_left]
  cases s.admits r && !rs.any (·.id == r.id) <;> rfl

theorem firstOfEach_filter (s : RuleSelection) : firstOfEach (s.rules.filter s.admits) = s.chosen := by
  unfold chosen
  induction s.rules using List.reverseRecOn with
  | nil => rfl
  | append_singleton rs r ih =>
    rw [filter_zipIdx_append, ← ih, List.filter_append]
    by_cases hkept : s.admits r = true
    · have hsame : (rs.filter s.admits).any (·.id == r.id) = rs.any (·.id == r.id) := by
        rw [List.any_filter]
        apply List.any_congr rfl
        intro q
        by_cases hid : q.id = r.id
        · simp [hid, s.admits_congr hid, hkept]
        · simp [hid]
      rw [List.filter_singleton, hkept, Bool.true_and, cond_true, firstOfEach_append, addNew, any_firstOfEach, hsame]
      cases rs.any (·.id == r.id) <;> simp
    · simp [hkept]

variable {s : RuleSelection} {compile : String → Option (Text → Bool)} {g : Registry}

theorem build_eq_ok (h : s.build compile = .ok g) :
    s.exemptions compile = .ok g.exempts ∧ g.rules = firstOfEach (s.rules.filter s.admits) := by
  rw [build] at h
  cases hex : s.exemptions compile with
  | error f => rw [hex] at h; cases h
  | ok exempts =>
    rw [hex] at h
    cases h
    exact ⟨rfl, rfl⟩

theorem rulesFor_build (h : s.build compile = .ok g) (k : Kind) :
    g.rulesFor k = s.chosen.flatMap (fun r => List.replicate (r.kinds.count k) r) := by
  have hrules : g.rules = s.chosen := (build_eq_ok h).2.trans (firstOfEach_filter s)
  rw [Registry.rulesFor, hrules]
  congr 1
  funext r
  rw [List.map_const', ← List.countP_eq_length_filter]
  rfl

end RuleSelection

namespace Dispatch

variable (d : Dispatch) (source : Source)

def checksAt (z : Zipper) : List (Zipper × Rule) :=
  (d.rulesFor z.kind).map (z, ·)

def answer (x : Zipper × Rule) : Except Abort Verdict :=
  x.2.check ⟨source, d.registry.exempts⟩ x.1

def findings (x : Zipper × Rule) : List Finding :=
  match d.answer source x with
  | .ok v => v.findings
  | .error _ => []

def blame (x : Zipper × Rule) : Abort → Failure
  | .failure .cancelled => .cancelled
  | .failure (.fault rule location message) => .fault rule location message
  | a => .fault x.2.id (source.location x.1.span) a.message

variable {d source}

theorem runCheck_of_ok {x : Zipper × Rule} {v : Verdict} (h : d.answer source x = .ok v) :
    runCheck ⟨source, d.registry.exempts⟩ x.1 x.2 = .ok v := by
  rw [answer] at h
  rw [runCheck, h]

theorem runCheck_of_error {x : Zipper × Rule} {a : Abort} (h : d.answer source x = .error a) :
    runCheck ⟨source, d.registry.exempts⟩ x.1 x.2 = .error (blame source x a) := by
  rw [answer] at h
  rw [runCheck, h]
  cases a with
  | crash m => rfl
  | failure f => cases f <;> rfl

theorem mapM_runCheck {z : Zipper} {rs : List Rule} (h : ∀ r ∈ rs, (d.answer source (z, r)).isOk) :
    ∃ vs, rs.mapM (runCheck ⟨source, d.registry.exempts⟩ z) = .ok vs ∧
      vs.flatMap (·.findings) = rs.flatMap (fun r => d.findings source (z, r)) := by
  induction rs with
  | nil => exact ⟨[], rfl, rfl⟩
  | cons r rs ih =>
    obtain ⟨vs, hvs, hfound⟩ := ih (fun q hq => h q (List.mem_cons_of_mem _ hq))
    have hr := h r List.mem_cons_self
    cases hv : d.answer source (z, r) with
    | error a => rw [hv] at hr; cases hr
    | ok v =>
      refine ⟨v :: vs, ?_, ?_⟩
      · rw [List.mapM_cons, runCheck_of_ok hv, hvs]
        rfl
      · rw [List.flatMap_cons, List.flatMap_cons, hfound, findings, hv]

theorem visit_of_ok {z : Zipper} (h : ∀ x ∈ d.checksAt z, (d.answer source x).isOk) :
    d.visit source z = .ok ((d.checksAt z).flatMap (d.findings source)) := by
  have hrules : ∀ r ∈ d.rulesFor z.kind, (d.answer source (z, r)).isOk :=
    fun r hr => h (z, r) (List.mem_map_of_mem hr)
  obtain ⟨vs, hvs, hfound⟩ := mapM_runCheck hrules
  rw [visit, hvs, checksAt, List.flatMap_map, ← hfound]
  rfl

theorem visit_of_error {z : Zipper} {front back : List Rule} {r : Rule} {a : Abort}
    (hrules : d.rulesFor z.kind = front ++ r :: back) (hfront : ∀ q ∈ front, (d.answer source (z, q)).isOk)
    (h : d.answer source (z, r) = .error a) : d.visit source z = .error (blame source (z, r) a) := by
  obtain ⟨vs, hvs, -⟩ := mapM_runCheck hfront
  rw [visit, hrules, List.mapM_append, hvs, List.mapM_cons, runCheck_of_error h]
  rfl

variable (d source)

def reply (run : Run) : Nat → Option (Except Failure Finding)
  | 0 => (d.next source false run).1
  | n + 1 => reply (d.next source false run).2 n

def script : List Zipper → List (Except Failure Finding)
  | [] => []
  | z :: zs =>
    match d.visit source z with
    | .error f => [.error f]
    | .ok fs => fs.map .ok ++ script zs

def Run.script : Run → List (Except Failure Finding)
  | .active pending ahead _ => pending.map .ok ++ d.script source ahead
  | .over => []

theorem advance_script (n : Nat) (zs : List Zipper) :
    (d.advance source false n zs).1 = (d.script source zs).head? ∧
      Run.script d source (d.advance source false n zs).2 = (d.script source zs).tail := by
  induction zs generalizing n with
  | nil => exact ⟨rfl, rfl⟩
  | cons z zs ih =>
    rw [advance, script, if_neg (by simp)]
    cases d.visit source z with
    | error f => exact ⟨rfl, rfl⟩
    | ok fs =>
      cases fs with
      | nil => exact ih (n + 1)
      | cons f fs => exact ⟨rfl, rfl⟩

theorem next_script (run : Run) : (d.next source false run).1 = (run.script d source).head? ∧
    Run.script d source (d.next source false run).2 = (run.script d source).tail := by
  obtain ⟨pending, ahead, visited⟩ | _ := run
  · cases pending with
    | nil => exact d.advance_script source visited ahead
    | cons f fs => exact ⟨rfl, rfl⟩
  · exact ⟨rfl, rfl⟩

theorem reply_eq (run : Run) (n : Nat) : d.reply source run n = (run.script d source)[n]? := by
  induction n generalizing run with
  | zero => rw [reply, (d.next_script source run).1, List.head?_eq_getElem?]
  | succ n ih => rw [reply, ih, (d.next_script source run).2, List.getElem?_tail]

theorem mapM_map_ok (fs : List Finding) : (fs.map (.ok : Finding → Except Failure Finding)).mapM id = .ok fs := by
  induction fs with
  | nil => rfl
  | cons f fs ih =>
    rw [List.map_cons, List.mapM_cons, ih]
    rfl

theorem collectFrom_eq_mapM (n : Nat) (zs : List Zipper) :
    d.collectFrom source false n zs = (d.script source zs).mapM id := by
  induction zs generalizing n with
  | nil => rfl
  | cons z zs ih =>
    rw [collectFrom, script, if_neg (by simp), ih]
    cases d.visit source z with
    | error f => rfl
    | ok fs =>
      dsimp only
      rw [List.mapM_append, mapM_map_ok]

variable {d source}

theorem script_append {zs : List Zipper} (h : ∀ z ∈ zs, ∀ x ∈ d.checksAt z, (d.answer source x).isOk)
    (ws : List Zipper) : d.script source (zs ++ ws) =
      ((zs.flatMap d.checksAt).flatMap (d.findings source)).map .ok ++ d.script source ws := by
  induction zs with
  | nil => rfl
  | cons z zs ih =>
    rw [List.cons_append, script, visit_of_ok (h z List.mem_cons_self),
      ih (fun y hy => h y (List.mem_cons_of_mem _ hy))]
    simp

theorem script_of_ok {zs : List Zipper} (h : ∀ z ∈ zs, ∀ x ∈ d.checksAt z, (d.answer source x).isOk) :
    d.script source zs = ((zs.flatMap d.checksAt).flatMap (d.findings source)).map .ok := by
  have happend := script_append h []
  rwa [List.append_nil, script, List.append_nil] at happend

theorem script_of_error {before after : List Zipper} {z : Zipper} {front back : List Rule} {r : Rule} {a : Abort}
    (hbefore : ∀ y ∈ before, ∀ x ∈ d.checksAt y, (d.answer source x).isOk)
    (hrules : d.rulesFor z.kind = front ++ r :: back) (hfront : ∀ q ∈ front, (d.answer source (z, q)).isOk)
    (h : d.answer source (z, r) = .error a) : d.script source (before ++ z :: after) =
      ((before.flatMap d.checksAt).flatMap (d.findings source)).map .ok ++ [Except.error (blame source (z, r) a)] := by
  rw [script_append hbefore, script, visit_of_error hrules hfront h]

/-- The rules for a kind are the chosen ones in their order, as often as they name it. If no check fails, a run gives
what the checks find, element by element and rule by rule. If one fails, a run gives what was found at the elements
before, the failure of the first check that fails, and nothing more; collecting gives that failure. -/
theorem runs_in_order {s : RuleSelection} {compile : String → Option (Text → Bool)} {g : Registry}
    (hg : s.build compile = .ok g) (only : Option (List String)) (source : Source) :
    let d : Dispatch := ⟨g, only⟩
    let elements := (Zipper.ofRoot source.tree).preorder
    (∀ k, g.lookUp k = s.chosen.flatMap (fun r => List.replicate (r.kinds.count k) r) ∧
        d.rulesFor k = (g.lookUp k).filter (fun r => only.all (·.contains r.id))) ∧
      (∀ z, z ∈ elements ↔ z.root = source.tree) ∧
      ((∀ x ∈ elements.flatMap d.checksAt, (d.answer source x).isOk) →
        d.collect source false = .ok ((elements.flatMap d.checksAt).flatMap (d.findings source)) ∧
          ∀ n, d.reply source (start source) n =
            ((elements.flatMap d.checksAt).flatMap (d.findings source))[n]?.map .ok) ∧
      ∀ before z after front r back a, elements = before ++ z :: after → d.rulesFor z.kind = front ++ r :: back →
        (∀ x ∈ before.flatMap d.checksAt ++ front.map (z, ·), (d.answer source x).isOk) →
        d.answer source (z, r) = .error a →
        d.collect source false = .error (blame source (z, r) a) ∧
          ∀ n, d.reply source (start source) n =
            (((before.flatMap d.checksAt).flatMap (d.findings source)).map .ok ++
              [.error (blame source (z, r) a)])[n]? := by
  intro d elements
  refine ⟨fun k => ?_, fun z => ⟨?_, ?_⟩, ?_, ?_⟩
  · rw [Registry.lookUp_eq_rulesFor]
    exact ⟨RuleSelection.rulesFor_build hg k, rfl⟩
  · exact Zipper.root_preorderOf [] source.tree z
  · intro hz
    have hmem := Zipper.mem_preorder z
    rwa [hz] at hmem
  · intro hok
    have hscript : d.script source elements = _ :=
      script_of_ok (fun z hz x hx => hok x (List.mem_flatMap.mpr ⟨z, hz, hx⟩))
    constructor
    · rw [collect, collectFrom_eq_mapM, hscript, mapM_map_ok]
    · intro n
      rw [reply_eq, start, Run.script, List.map_nil, List.nil_append, hscript, List.getElem?_map]
  · intro before z after front r back a helements hrules hok herror
    have hscript : d.script source elements = ((before.flatMap d.checksAt).flatMap (d.findings source)).map .ok ++
        [.error (blame source (z, r) a)] := by
      rw [helements]
      refine script_of_error (fun y hy x hx => hok x ?_) hrules (fun q hq => hok (z, q) ?_) herror
      · exact List.mem_append_left _ (List.mem_flatMap.mpr ⟨y, hy, hx⟩)
      · exact List.mem_append_right _ (List.mem_map_of_mem hq)
    constructor
    · rw [collect, collectFrom_eq_mapM, hscript, List.mapM_append, mapM_map_ok]
      rfl
    · intro n
      rw [reply_eq, start, Run.script, List.map_nil, List.nil_append, hscript]

def marking : Rule where
  id := "mark"
  name := "Mark"
  message := ""
  kinds := [.ident, .whitespace, .ident]
  check _ z := .ok (.ofFindings [⟨"mark", z.span, [], [], false⟩])

def failing : Rule where
  id := "fail"
  name := "Fail"
  message := ""
  kinds := [.ident]
  check _ z := if z.start = 0 then .ok .clean else .error (.crash (some "lost"))

def shaky : RuleSelection :=
  { rules := [marking, failing, { marking with kinds := [.exprStmt] }] }

def shakyRegistry : Registry :=
  ⟨{}, [marking, failing], RuleSelection.byPatterns []⟩

def twoNames : Source :=
  ⟨.node .exprStmt [.token .ident ['x'], .token .ident ['y']], none⟩

theorem runs_in_order_shaky :
    shaky.build = .ok shakyRegistry ∧
      collect ⟨shakyRegistry, none⟩ twoNames false =
        .error (.fault "fail" (twoNames.location ⟨1, 1⟩) "lost") ∧
      (∀ n, 2 < n → reply ⟨shakyRegistry, none⟩ twoNames (start twoNames) n = none) ∧
      collect ⟨shakyRegistry, some ["mark"]⟩ twoNames false =
        .ok [⟨"mark", ⟨0, 1⟩, [], [], false⟩, ⟨"mark", ⟨0, 1⟩, [], [], false⟩,
          ⟨"mark", ⟨1, 1⟩, [], [], false⟩, ⟨"mark", ⟨1, 1⟩, [], [], false⟩] := by
  have hbuild : shaky.build = .ok shakyRegistry := rfl
  obtain ⟨-, -, -, hfails⟩ := runs_in_order hbuild none twoNames
  obtain ⟨-, -, hgoes, -⟩ := runs_in_order hbuild (some ["mark"]) twoNames
  let x : Tree := .token .ident ['x']
  let y : Tree := .token .ident ['y']
  obtain ⟨hcollect, hreply⟩ := hfails [⟨twoNames.tree, []⟩, ⟨x, [⟨.exprStmt, [], [y]⟩]⟩] ⟨y, [⟨.exprStmt, [x], []⟩]⟩ []
    [marking, marking] failing [] (.crash (some "lost")) rfl rfl (by decide) rfl
  refine ⟨hbuild, hcollect, fun n hn => ?_, (hgoes (by decide)).1⟩
  rw [hreply]
  apply List.getElem?_eq_none
  refine Nat.le_trans (Nat.le_of_eq ?_) hn
  decide

end Dispatch

end Lintel
