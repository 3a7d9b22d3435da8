import Palimpsest.Sql.Mir

/-! Query graphs in which every node has one reader, as trees. Lowering builds only such graphs: a
CTE is copied into each of its references. -/
namespace Palimpsest.Sql

inductive MirTree where
  | leaf (kind : MirNodeKind)
  | unary (kind : MirNodeKind) (input : MirTree)
  | dual (kind : MirNodeKind) (left right : MirTree)
  | expand (kind : MirNodeKind) (body : MirTree)
deriving Repr, DecidableEq

namespace MirTree

/-- The graph, with the nodes in the order in which lowering adds them. -/
def graph : MirTree → MirGraph
  | .leaf kind => .new kind
  | .unary kind input =>
    let g := input.graph
    let node := g.nodeCount
    ((g.addNode kind).addInput g.root node).setRoot node
  | .dual kind left right =>
    let g := left.graph
    let (joined, rightRoot) := g.appendGraph right.graph
    let node := joined.nodeCount
    (((joined.addNode kind).addInput g.root node).addInput rightRoot node).setRoot node
  | .expand kind body =>
    let g := MirGraph.new kind
    let (copied, bodyRoot) := g.appendGraph body.graph
    copied.addCteExpansion bodyRoot g.root

end MirTree

end Palimpsest.Sql
