import Cascades.JoinGraph.Basic
import Cascades.Proofs.JoinGraph.Links
import Mathlib.Data.Finset.Card
import Mathlib.Logic.Relation

/-!
# Join orders

A join order of a graph is an ordered binary tree over its tables in which every join has a link
between its two inputs. In a connected graph no two parts of the tables are without a link.
-/

namespace Cascades

/-- An ordered binary tree of joins over tables. -/
inductive JoinOrder where
  | scan (table : GraphTable)
  | join (left right : JoinOrder)

namespace JoinOrder

/-- The tables at the leaves, from left to right. -/
def tables : JoinOrder → List GraphTable
  | .scan table => [table]
  | .join left right => left.tables ++ right.tables

/-- The names of the tables. -/
def names (order : JoinOrder) : Finset String :=
  (order.tables.map GraphTable.name).toFinset

/-- Some link crosses between the inputs of every join. -/
def Crossed (links : List Link) : JoinOrder → Prop
  | .scan _ => True
  | .join left right =>
      Touch links left.names right.names ∧ left.Crossed links ∧ right.Crossed links

@[simp]
theorem names_scan (table : GraphTable) : (scan table).names = {table.name} := by
  simp [names, tables]

@[simp]
theorem names_join (left right : JoinOrder) : (join left right).names = left.names ∪ right.names := by
  simp [names, tables]

end JoinOrder

namespace JoinGraph

/-- The table of an identifier. -/
def table? (graph : JoinGraph) (id : String) : Option GraphTable :=
  graph.tables.find? fun table => table.id == id

/-- The link that an edge stands for. -/
def link? (graph : JoinGraph) (edge : GraphEdge) : Option Link :=
  match graph.table? edge.leftTable, graph.table? edge.rightTable with
  | some left, some right => some ⟨left.name, edge.leftColumn, right.name, edge.rightColumn⟩
  | _, _ => none

/-- The links of a graph. -/
def links (graph : JoinGraph) : List Link :=
  graph.edges.filterMap graph.link?

/-- The names of the tables. -/
def names (graph : JoinGraph) : Finset String :=
  (graph.tables.map GraphTable.name).toFinset

/-- The order has every table once, and links between the inputs of every join. -/
def Admits (graph : JoinGraph) (order : JoinOrder) : Prop :=
  order.tables.Perm graph.tables ∧ order.Crossed graph.links

/-- Any two tables are connected by a path of links. -/
def Connected (graph : JoinGraph) : Prop :=
  ∀ first ∈ graph.names, ∀ second ∈ graph.names,
    Relation.ReflTransGen (fun table next => Touch graph.links {table} {next}) first second

section Names

variable {graph : JoinGraph}

theorem mem_names {name : String} : name ∈ graph.names ↔ ∃ table ∈ graph.tables, table.name = name := by
  simp [names]

theorem table?_mem {id : String} {table : GraphTable} (found : graph.table? id = some table) :
    table ∈ graph.tables ∧ table.id = id :=
  ⟨List.mem_of_find?_eq_some found, by simpa using List.find?_some found⟩

/-- The ends of links are tables of the graph. -/
theorem mem_names_of_mem_links {link : Link} (link_mem : link ∈ graph.links) :
    link.left ∈ graph.names ∧ link.right ∈ graph.names := by
  rcases List.mem_filterMap.mp link_mem with ⟨edge, -, link_eq⟩
  rw [link?] at link_eq
  split at link_eq
  · rename_i left right left_found right_found
    cases link_eq
    exact ⟨mem_names.mpr ⟨left, (table?_mem left_found).1, rfl⟩,
      mem_names.mpr ⟨right, (table?_mem right_found).1, rfl⟩⟩
  · cases link_eq

theorem mem_names_of_touch {first : Finset String} {table : String}
    (touch : Touch graph.links first {table}) : table ∈ graph.names := by
  rcases touch with ⟨link, link_mem, ⟨-, right_eq⟩ | ⟨-, left_eq⟩⟩
  · exact Finset.mem_singleton.mp right_eq ▸ (mem_names_of_mem_links link_mem).2
  · exact Finset.mem_singleton.mp left_eq ▸ (mem_names_of_mem_links link_mem).1

/-- A path of links out of a part leaves it somewhere. -/
theorem Connected.linked (connected : graph.Connected) : Linked graph.links graph.names := by
  intro part proper nonempty
  rcases nonempty with ⟨first, first_mem⟩
  rcases Finset.exists_of_ssubset proper with ⟨second, second_mem, second_out⟩
  have path := connected first (proper.1 first_mem) second second_mem
  induction path with
  | refl => exact (second_out first_mem).elim
  | @tail middle next _ step ih =>
      by_cases inside : middle ∈ part
      · refine (step.mono_left (Finset.singleton_subset_iff.mpr inside)).mono_right ?_
        exact Finset.singleton_subset_iff.mpr (Finset.mem_sdiff.mpr ⟨second_mem, second_out⟩)
      · exact ih (mem_names_of_touch step.symm) inside

end Names

end JoinGraph

end Cascades
