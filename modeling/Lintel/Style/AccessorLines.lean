import Lintel.Rule

namespace Lintel.AccessorLines

def id : String := "SA1504"

def isSingleLine (lines : LineIndex) (accessor : Zipper) : Bool :=
  lines.sameLine accessor.span.start accessor.span.stop

def check (c : CheckContext) (z : Zipper) : Verdict :=
  if !z.isAccessorOwner then .notApplicable
  else
    match z.accessorList?.map (·.accessors) with
    | some [first, second] =>
      let lines := c.source.lines
      if isSingleLine lines first == isSingleLine lines second then .clean
      else
        .violations [
          { rule := id, span := (second.accessorWord?.getD second).span, secondary := [second.span] }]
    | _ => .notApplicable

def rule : Rule :=
  { id
    name := "AllAccessorsMustBeSingleLineOrMultiLine"
    message := "All accessors must be single-line or multi-line"
    kinds := [.propertyDecl, .indexerDecl, .eventDecl]
    check := fun c z => .ok (check c z) }

end Lintel.AccessorLines
