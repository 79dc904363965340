import Reshard.Cost.Basic
import Reshard.Decimal.Numeral

/-! How costs are spelled.

    Reports, messages and documents spell a cost differently. Reports and messages have a text for
    every cost; documents have numerals only, so there only a finite cost has a spelling, and a
    numeral may stand for no cost because it is too large.

    Source: the texts of costs in the report, in messages and in documents. -/

namespace Reshard

/-- The spellings of costs. -/
class CostFormat (α : Type) where
  /-- The text of a cost in a report. -/
  inReport : α → String
  /-- The text of a cost in a message. -/
  inMessage : α → String
  /-- The numeral of a finite cost in a document. -/
  numeral : α → Numeral
  /-- The finite cost that a numeral in a document stands for. -/
  ofNumeral? : Numeral → Option α

namespace CostFormat

/-- A list as reports spell it. -/
def listText (items : List String) : String := "[" ++ String.intercalate ", " items ++ "]"

end CostFormat

end Reshard
