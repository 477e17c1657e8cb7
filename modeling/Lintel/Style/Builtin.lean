import Lintel.Style.AccessorLines
import Lintel.Style.Casing
import Lintel.Style.KeywordSpacing
import Lintel.Style.Parentheses
import Lintel.Style.SummaryText

namespace Lintel

def builtinRules : List Rule := [
  KeywordSpacing.rule, Parentheses.rule, Casing.rule, AccessorLines.rule, SummaryText.rule]

end Lintel
