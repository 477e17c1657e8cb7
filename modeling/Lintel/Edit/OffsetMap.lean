import Lintel.Text.Basic

namespace Lintel

structure Delta where
  span : Span
  newLength : Nat
  deriving DecidableEq

structure OffsetMap where
  deltas : List Delta := []
  deriving DecidableEq

namespace Delta

def before (a b : Delta) : Bool :=
  a.span.start < b.span.start || (a.span.start == b.span.start && a.span.stop ≤ b.span.stop)

/-- Whether all of the change lies before an offset; an insertion at the offset does not. -/
def isPassed (d : Delta) (offset : Nat) : Bool :=
  d.span.stop ≤ offset && !(d.span.isEmpty && d.span.start == offset)

def growth (d : Delta) : Int :=
  d.newLength - d.span.length

end Delta

namespace OffsetMap

def ofDeltas (ds : List Delta) : OffsetMap :=
  ⟨ds.mergeSort Delta.before⟩

def isIdentity (m : OffsetMap) : Bool :=
  m.deltas.isEmpty

def clamp (x : Int) : Nat :=
  min x.toNat 0xFFFFFFFF

/-- Where an offset goes, when the changes before have shifted it. An offset inside a change stays
inside what replaced it. -/
def mapFrom (offset : Nat) (shift : Int) : List Delta → Nat
  | [] => clamp (offset + shift)
  | d :: ds =>
    if d.isPassed offset then mapFrom offset (shift + d.growth) ds
    else if d.span.start < offset then
      clamp (d.span.start + shift + min (offset - d.span.start) d.newLength)
    else clamp (offset + shift)

def map (m : OffsetMap) (offset : Nat) : Nat :=
  mapFrom offset 0 m.deltas

def mapSpan (m : OffsetMap) (s : Span) : Span :=
  let start := m.map s.start
  .between start (max (m.map s.stop) start)

end OffsetMap

end Lintel
