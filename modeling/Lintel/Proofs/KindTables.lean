import Mathlib.Data.List.Induction
import Mathlib.Data.List.Nodup
import Lintel.Registry

namespace Lintel

namespace Kind

theorem code_injective : Function.Injective code := by
  have hcodes : (all.map code).Pairwise (· < ·) := List.isChain_iff_pairwise.mp (by decide +kernel)
  have hnodup : (all.map code).Nodup := hcodes.imp Nat.ne_of_lt
  intro k l h
  exact List.inj_on_of_nodup_map hnodup (mem_all k) (mem_all l) h

end Kind

namespace Registry

def enter (table : List (List Nat)) (slot index : Nat) : List (List Nat) :=
  (table ++ List.replicate (slot + 1 - table.length) []).modify slot (· ++ [index])

def kindTable (g : Registry) : List (List Nat) :=
  g.rules.zipIdx.foldl (fun table x => x.1.kinds.foldl (fun table k => enter table k.code x.2) table) []

def lookUp (g : Registry) (k : Kind) : List Rule :=
  ((g.kindTable[k.code]?).getD []).filterMap (g.rules[·]?)

theorem getD_enter (table : List (List Nat)) (slot index j : Nat) :
    ((enter table slot index)[j]?).getD [] = (table[j]?).getD [] ++ if slot = j then [index] else [] := by
  have hgrown : ((table ++ List.replicate (slot + 1 - table.length) [])[j]?).getD [] = (table[j]?).getD [] := by
    by_cases hj : j < table.length
    · rw [List.getElem?_append_left hj]
    · rw [List.getElem?_append_right (by omega), List.getElem?_replicate, List.getElem?_eq_none (by omega)]
      split <;> rfl
  rw [enter, List.getElem?_modify, ← hgrown]
  split
  · rename_i hslot
    have hlt : j < (table ++ List.replicate (slot + 1 - table.length) ([] : List Nat)).length := by
      rw [List.length_append, List.length_replicate]
      omega
    simp [List.getElem?_eq_getElem hlt]
  · simp

theorem getD_foldl_enter (table : List (List Nat)) (kinds : List Kind) (index : Nat) (k : Kind) :
    ((kinds.foldl (fun table k => enter table k.code index) table)[k.code]?).getD [] =
      (table[k.code]?).getD [] ++ List.replicate (kinds.count k) index := by
  induction kinds generalizing table with
  | nil => simp
  | cons l kinds ih =>
    rw [List.foldl_cons, ih, getD_enter, List.count_cons, List.append_assoc]
    by_cases hl : l = k
    · simp [hl, List.replicate_succ]
    · simp [hl, Kind.code_injective.ne hl]

theorem getD_kindTable (g : Registry) (k : Kind) :
    (g.kindTable[k.code]?).getD [] = g.rules.zipIdx.flatMap (fun x => List.replicate (x.1.kinds.count k) x.2) := by
  rw [kindTable]
  induction g.rules.zipIdx using List.reverseRecOn with
  | nil => rfl
  | append_singleton xs x ih => simp [List.foldl_append, getD_foldl_enter, ih]

theorem lookUp_eq_rulesFor (g : Registry) (k : Kind) : g.lookUp k = g.rulesFor k := by
  have hrule : ∀ x ∈ g.rules.zipIdx, (List.replicate (x.1.kinds.count k) x.2).filterMap (g.rules[·]?) =
      (x.1.kinds.filter (· == k)).map (fun _ => x.1) := by
    intro x hx
    have hget : g.rules[x.2]? = some x.1 := List.mk_mem_zipIdx_iff_getElem?.mp hx
    rw [List.map_const', ← List.countP_eq_length_filter, List.filterMap_replicate_of_some hget]
    rfl
  calc g.lookUp k
      = g.rules.zipIdx.flatMap (fun x => (x.1.kinds.filter (· == k)).map (fun _ => x.1)) := by
        rw [lookUp, getD_kindTable, List.filterMap_flatMap, List.flatMap_congr hrule]
    _ = (g.rules.zipIdx.map (·.1)).flatMap (fun r => (r.kinds.filter (· == k)).map (fun _ => r)) := by
        rw [List.flatMap_map]
    _ = g.rulesFor k := by rw [List.zipIdx_map_fst, rulesFor]

end Registry

end Lintel
