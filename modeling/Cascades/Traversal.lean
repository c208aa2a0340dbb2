/-!
# Breadth-first traversal

The nodes of a graph are natural numbers, and only nodes below a bound have successors. A traversal
lists every node that can be reached from a start, in the order in which a breadth-first search
first meets it.
-/

namespace Cascades

namespace Traversal

/--
The nodes met by serving the pending ones in order, those seen before excepted. Each step serves one
pending node.
-/
def visit (successors : Nat → List Nat) : (steps : Nat) → (seen pending : List Nat) → List Nat
  | 0, _, _ => []
  | _ + 1, _, [] => []
  | steps + 1, seen, node :: pending =>
      if seen.contains node then visit successors steps seen pending
      else node :: visit successors steps (node :: seen) (pending ++ successors node)

/-- The number of edges that leave the nodes below a bound. -/
def edgeCount (bound : Nat) (successors : Nat → List Nat) : Nat :=
  (List.range bound).foldr (fun node count => (successors node).length + count) 0

/--
The nodes reachable from a start, in breadth-first order. A node is pending once for every edge that
leads to it, so the edges bound the number of steps.
-/
def breadthFirst (bound : Nat) (successors : Nat → List Nat) (start : Nat) : List Nat :=
  visit successors (edgeCount bound successors + 1) [] [start]

end Traversal

end Cascades
