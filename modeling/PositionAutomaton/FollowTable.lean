import PositionAutomaton.NodeTable

/-!
# Follow tables

For each position of an expression, the positions that come directly after it in some word
of the expression. A concatenation lets the first positions of its right operand follow the
last ones of its left operand, and a repetition lets the first positions of its operand
follow the last ones.
-/

namespace PositionAutomaton

/-- The positions that may follow each position of an expression. -/
structure FollowTable where
  /-- The set for each position, in the order of the positions. -/
  rows : Array PositionSet
  deriving DecidableEq

namespace FollowTable

/-- The table in which nothing follows any of the first `positionCount` positions. -/
def blank (positionCount : Nat) : FollowTable :=
  ⟨.replicate positionCount .empty⟩

/-- The positions that may follow `p`, if the table has a row for it. -/
def row? (t : FollowTable) (p : Position) : Option PositionSet :=
  t.rows[p.index]?

/-- Lets the members of `targets` follow `p`. -/
def add (t : FollowTable) (p : Position) (targets : PositionSet) : FollowTable :=
  ⟨t.rows.modify p.index (·.absorb targets)⟩

/-- Lets the members of `targets` follow each member of `sources`. -/
def connect (t : FollowTable) (sources targets : PositionSet) : FollowTable :=
  sources.toList.foldl (fun t p => t.add p targets) t

/-- Adds what the node of `entry` says about its operands in `entries`. -/
def extend (entries : Array Entry) (t : FollowTable) (entry : Entry) : FollowTable :=
  match entry.node with
  | .leaf _ | .alt _ _ => t
  | .star _ => t.connect entry.boundary.last entry.boundary.first
  | .cat left right =>
    match entries[left]?, entries[right]? with
    | some l, some r => t.connect l.boundary.last r.boundary.first
    | _, _ => t

/-- The positions that may follow each position of `e`. -/
def ofExpression (e : Expression) : FollowTable :=
  e.entries.foldl (extend e.entries) (blank e.positionCount)

end FollowTable

end PositionAutomaton
