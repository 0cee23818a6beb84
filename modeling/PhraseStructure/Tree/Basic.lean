/-!
# Derivation trees

A leaf carries a word and a node a category with its children in order. Functions on trees come
with a companion on lists of trees.
-/

namespace PhraseStructure

/-- A derivation tree; a node may have any number of children. -/
inductive Tree where
  | leaf (word : String)
  | node (label : String) (children : List Tree)
deriving Repr

namespace Tree

mutual

/-- Equality of trees is decided node by node. -/
def decEq : (t u : Tree) → Decidable (t = u)
  | leaf v, leaf w => if h : v = w then isTrue (by rw [h]) else isFalse (by simp [h])
  | leaf _, node _ _ => isFalse (by simp)
  | node _ _, leaf _ => isFalse (by simp)
  | node l ts, node m us =>
    if h : l = m then
      match decEqAll ts us with
      | isTrue k => isTrue (by rw [h, k])
      | isFalse k => isFalse (by simp [k])
    else isFalse (by simp [h])

/-- Equality of lists of trees is decided tree by tree. -/
def decEqAll : (ts us : List Tree) → Decidable (ts = us)
  | [], [] => isTrue rfl
  | [], _ :: _ => isFalse (by simp)
  | _ :: _, [] => isFalse (by simp)
  | t :: ts, u :: us =>
    match decEq t u, decEqAll ts us with
    | isTrue h, isTrue k => isTrue (by rw [h, k])
    | isFalse h, _ => isFalse (by simp [h])
    | _, isFalse k => isFalse (by simp [k])

end

instance : DecidableEq Tree := decEq

/-- The symbol at the root: the word of a leaf or the label of a node. -/
def symbol : Tree → String
  | leaf word => word
  | node label _ => label

def isLeaf : Tree → Bool
  | leaf _ => true
  | node _ _ => false

def isNode : Tree → Bool
  | leaf _ => false
  | node _ _ => true

def word? : Tree → Option String
  | leaf word => some word
  | node _ _ => none

def node? : Tree → Option (String × List Tree)
  | leaf _ => none
  | node label children => some (label, children)

mutual

/-- The words at the leaves, left to right. -/
def leaves : Tree → List String
  | leaf word => [word]
  | node _ children => leavesAll children

def leavesAll : List Tree → List String
  | [] => []
  | t :: ts => leaves t ++ leavesAll ts

end

mutual

/-- The number of nodes on the longest path from the root. -/
def height : Tree → Nat
  | leaf _ => 0
  | node _ children => 1 + heightAll children

/-- The greatest height among several trees. -/
def heightAll : List Tree → Nat
  | [] => 0
  | t :: ts => max (height t) (heightAll ts)

end

mutual

def nodeCount : Tree → Nat
  | leaf _ => 0
  | node _ children => 1 + nodeCountAll children

def nodeCountAll : List Tree → Nat
  | [] => 0
  | t :: ts => nodeCount t + nodeCountAll ts

end

mutual

/-- The nodes, each with its label and its children, every node before those below it and these
from left to right. -/
def nodes : Tree → List (String × List Tree)
  | leaf _ => []
  | node label children => (label, children) :: nodesAll children

/-- The nodes of several trees, in the same order. -/
def nodesAll : List Tree → List (String × List Tree)
  | [] => []
  | t :: ts => nodes t ++ nodesAll ts

end

theorem leavesAll_eq_flatMap (ts : List Tree) : leavesAll ts = ts.flatMap leaves := by
  induction ts with
  | nil => rfl
  | cons t ts ih => rw [leavesAll, List.flatMap_cons, ih]

theorem nodesAll_eq_flatMap (ts : List Tree) : nodesAll ts = ts.flatMap nodes := by
  induction ts with
  | nil => rfl
  | cons t ts ih => rw [nodesAll, List.flatMap_cons, ih]

mutual

@[simp] theorem length_nodes : (t : Tree) → (nodes t).length = nodeCount t
  | leaf _ => rfl
  | node _ children => by
    rw [nodes, List.length_cons, length_nodesAll children, nodeCount, Nat.add_comm]

@[simp] theorem length_nodesAll : (ts : List Tree) → (nodesAll ts).length = nodeCountAll ts
  | [] => rfl
  | t :: ts => by
    rw [nodesAll, List.length_append, length_nodes t, length_nodesAll ts, nodeCountAll]

end

/-- Every label has a property, and every word has one. -/
def HasSymbols (P Q : String → Prop) (t : Tree) : Prop :=
  (∀ node ∈ t.nodes, P node.1) ∧ ∀ word ∈ t.leaves, Q word

@[simp] theorem hasSymbols_leaf {P Q : String → Prop} {word : String} :
    (leaf word).HasSymbols P Q ↔ Q word := by
  simp [HasSymbols, nodes, leaves]

@[simp] theorem hasSymbols_node {P Q : String → Prop} {label : String} {children : List Tree} :
    (node label children).HasSymbols P Q ↔ P label ∧ ∀ t ∈ children, t.HasSymbols P Q := by
  simp only [HasSymbols, nodes, leaves, nodesAll_eq_flatMap, leavesAll_eq_flatMap,
    List.forall_mem_cons, List.forall_mem_flatMap, and_assoc, forall_and]

theorem heightAll_le_iff {ts : List Tree} {n : Nat} :
    heightAll ts ≤ n ↔ ∀ t ∈ ts, t.height ≤ n := by
  induction ts with
  | nil => simp [heightAll]
  | cons t ts ih => rw [heightAll, Nat.max_le, ih, List.forall_mem_cons]

end Tree

end PhraseStructure
