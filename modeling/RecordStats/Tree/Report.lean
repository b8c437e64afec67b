import RecordStats.Json.Basic
import RecordStats.Tree.Node

/-! The tree of statistics as JSON. -/

namespace RecordStats

def Storage.toJson (s : Storage) : Json :=
  let bar := match s.errorBar .normal 1 with
    | .ok e => Json.ofDouble e
    | .error _ => .null
  match s with
  | count c => .ofMembers [("count", .ofDouble c.sumw), ("error", bar), ("sumw2", .ofDouble c.sumw2)]
  | sum _ t => .ofMembers [("sum", .ofDouble t.sumwx)]
  | profile _ p => .ofMembers [("profile", .ofDouble (p.mean 0)), ("error", bar), ("sumw", .ofDouble p.sumw),
      ("sumw2", .ofDouble p.sumw2)]
  | fraction _ f => .ofMembers [("fraction", .ofDouble (f.ratio 0)), ("error", bar),
      ("numerw", .ofDouble f.numerw), ("denomw", .ofDouble f.denomw)]

namespace Node

mutual

def toJson : Node → Json
  | .namespace _ children => .object (childrenToJson children)
  | binning _ bins _ values underflow overflow nanflow =>
    .ofMembers [("edges", .array (bins.edges.map Json.ofDouble)), ("bins", .array (valuesToJson values)),
      ("underflow", toJson underflow), ("overflow", toJson overflow), ("nanflow", toJson nanflow)]
  | storage _ content => content.toJson

def childrenToJson : List (String × Node) → List (String × Json)
  | [] => []
  | (name, node) :: rest => (name, toJson node) :: childrenToJson rest

def valuesToJson : List Node → List Json
  | [] => []
  | node :: rest => toJson node :: valuesToJson rest

end

end Node

def Namespace.toJson (root : Namespace) : Json :=
  .object (Node.childrenToJson root)

end RecordStats
