/-!
# The operator reference

The page that explains the words of rules and the queries they become.
-/

namespace FilterRules.CommandLine

/-- The lines of the operator reference. -/
def referenceLines : List String :=
  [ "RULE OPERATORS",
    "",
    "A rule sequence is a flat list of separators, logicals, and criteria:",
    "",
    "  \x7b\"type\": \"separator\", \"value\": \"BEGIN\" | \"END\"\x7d",
    "  \x7b\"type\": \"logical\",   \"value\": \"AND\" | \"OR\"\x7d",
    "  \x7b\"type\": \"criteria\",  \"attribute\": \"<path>\", \"relationship\": \"<REL>\", \"value\": ...\x7d",
    "  \x7b\"type\": \"criteria\",  \"attribute\": \"<path>\", \"relationship\": \"<REL>\", \"values\": [...]\x7d",
    "",
    "Every sequence is wrapped in BEGIN .. END, and one group uses one logical.",
    "",
    "RELATIONSHIPS",
    "",
    "  REL      OPERAND   DOCUMENT TARGET          SEARCH TARGET",
    "  EQ       value     $eq                      term",
    "  NE       value     $ne                      bool.must_not \x7b term \x7d",
    "  GT       value     $gt                      range.gt",
    "  LT       value     $lt                      range.lt",
    "  GE       value     $gte                     range.gte",
    "  LE       value     $lte                     range.lte",
    "  IN       values    $in                      terms",
    "  NI       values    $nin                     bool.must_not \x7b terms \x7d",
    "  ALL      values    $all                     terms_set (every term)",
    "  LIKE     value     $regex (case-insensitive) match",
    "  PREFIX   value     $regex ^...              prefix",
    "",
    "ATTRIBUTE PATHS",
    "",
    "  prices.currency                      dotted path",
    "  classifications[type:netbase].code   field of the element whose type is netbase",
    "",
    "Sibling criteria under one array attribute are matched within the same",
    "element ($elemMatch for documents, nested for search).",
    "",
    "CONNECTIVES",
    "",
    "  AND      $and     bool.filter (bool.must when any LIKE is present)",
    "  OR       $or      bool.should",
    "",
    "Rule groups: \x7b\"name\": \"...\", \"type\": \"group\", \"rules\": [...]\x7d entries are",
    "compiled together and joined with AND." ]

/-- The operator reference, with an end after each line. -/
def reference : String := String.join (referenceLines.map (· ++ "\n"))

end FilterRules.CommandLine
