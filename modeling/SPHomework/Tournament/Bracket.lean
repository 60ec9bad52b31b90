import Mathlib.Data.List.FinRange

set_option autoImplicit false

/-!
# The bracket

The battles, the tables of `battle.c` and `player.c`, and the tree of processes
that the tables make.
-/

namespace SPHomework.Tournament

inductive Attribute where
  | fire
  | grass
  | water
  deriving DecidableEq

inductive BattleId where
  | A | B | C | D | E | F | G | H | I | J | K | L | M | N
  deriving DecidableEq

def battles : List BattleId := [.A, .B, .C, .D, .E, .F, .G, .H, .I, .J, .K, .L, .M, .N]

theorem mem_battles (b : BattleId) : b ∈ battles := by
  cases b <;> decide

instance {p : BattleId → Prop} [DecidablePred p] : Decidable (∀ b, p b) :=
  decidable_of_iff (∀ b ∈ battles, p b) ⟨fun all b => all b (mem_battles b), fun all b _ => all b⟩

def BattleId.char : BattleId → Char
  | .A => 'A' | .B => 'B' | .C => 'C' | .D => 'D' | .E => 'E' | .F => 'F' | .G => 'G'
  | .H => 'H' | .I => 'I' | .J => 'J' | .K => 'K' | .L => 'L' | .M => 'M' | .N => 'N'

/-- The processes: `./battle X`, and `./player n` for the real players and the agents `8 + id`. -/
inductive Node where
  | battle (id : BattleId)
  | player (id : Fin 8)
  | agent (id : Fin 7)
  deriving DecidableEq

def nodes : List Node :=
  battles.map .battle ++ (List.finRange 8).map .player ++ (List.finRange 7).map .agent

theorem mem_nodes (node : Node) : node ∈ nodes := by
  cases node <;> simp [nodes, mem_battles]

instance {p : Node → Prop} [DecidablePred p] : Decidable (∀ node, p node) :=
  decidable_of_iff (∀ node ∈ nodes, p node) ⟨fun all node => all node (mem_nodes node), fun all node _ => all node⟩

def agentNumber (id : Fin 7) : Nat := 8 + id

def program (n : Fin 15) : Node :=
  if real : n.val < 8 then .player ⟨n, real⟩ else .agent ⟨n - 8, by omega⟩

structure Battle where
  parent : Option BattleId
  left : Node
  right : Node

def btl : BattleId → Battle
  | .A => ⟨none, .battle .B, .battle .C⟩
  | .B => ⟨some .A, .battle .D, .battle .E⟩
  | .C => ⟨some .A, .battle .F, program 14⟩
  | .D => ⟨some .B, .battle .G, .battle .H⟩
  | .E => ⟨some .B, .battle .I, .battle .J⟩
  | .F => ⟨some .C, .battle .K, .battle .L⟩
  | .G => ⟨some .D, program 0, program 1⟩
  | .H => ⟨some .D, program 2, program 3⟩
  | .I => ⟨some .E, program 4, program 5⟩
  | .J => ⟨some .E, program 6, program 7⟩
  | .K => ⟨some .F, .battle .M, program 10⟩
  | .L => ⟨some .F, .battle .N, program 13⟩
  | .M => ⟨some .K, program 8, program 9⟩
  | .N => ⟨some .L, program 11, program 12⟩

def field : BattleId → Attribute
  | .A => .fire | .B => .grass | .C => .water | .D => .water | .E => .fire | .F => .fire | .G => .fire
  | .H => .grass | .I => .water | .J => .grass | .K => .grass | .L => .grass | .M => .fire | .N => .water

-- The parent string of `player.c`, which names the battle over each program in the logs.
def parent : Fin 15 → Char
  | 0 => 'G' | 1 => 'G' | 2 => 'H' | 3 => 'H' | 4 => 'I' | 5 => 'I' | 6 => 'J' | 7 => 'J'
  | 8 => 'M' | 9 => 'M' | 10 => 'K' | 11 => 'N' | 12 => 'N' | 13 => 'L' | 14 => 'C'

/-- The agent that a loser of the battle writes to. For other battles `agentId` is not assigned. -/
def agentId (currentBattleId : Char) : Option Nat :=
  if currentBattleId = 'G' then some 8
  else if currentBattleId = 'I' then some 9
  else if currentBattleId = 'D' then some 10
  else if currentBattleId = 'H' then some 11
  else if currentBattleId = 'J' then some 12
  else if currentBattleId = 'E' then some 13
  else if currentBattleId = 'B' then some 14
  else none

inductive Side where
  | left
  | right
  deriving DecidableEq

instance {p : Side → Prop} [DecidablePred p] : Decidable (∀ side, p side) :=
  decidable_of_iff (p .left ∧ p .right)
    ⟨fun both side => match side with | .left => both.1 | .right => both.2, fun all => ⟨all .left, all .right⟩⟩

def Side.other : Side → Side
  | .left => .right
  | .right => .left

@[simp] theorem Side.other_other (side : Side) : side.other.other = side := by
  cases side <;> rfl

def Side.pick {A : Type} (left right : A) : Side → A
  | .left => left
  | .right => right

def child (b : BattleId) : Side → Node
  | .left => (btl b).left
  | .right => (btl b).right

def above (node : Node) : Option BattleId :=
  battles.find? fun b => child b .left = node ∨ child b .right = node

def ancestors : Nat → Node → List BattleId
  | 0, _ => []
  | height + 1, node =>
    match above node with
    | none => []
    | some b => b :: ancestors height (.battle b)

/-- The process and all that it has forked. No process is more than 6 levels down. -/
def tree (root node : Node) : Bool :=
  node = root || (ancestors 6 node).any fun b => Node.battle b = root

theorem above_child (b : BattleId) (side : Side) : above (child b side) = some b := by
  cases b <;> cases side <;> decide

theorem tree_self (node : Node) : tree node node = true := by
  simp [tree]

theorem tree_player (i : Fin 8) (node : Node) (inside : tree (.player i) node = true) : node = .player i := by
  simpa [tree] using inside

theorem tree_agent (a : Fin 7) (node : Node) (inside : tree (.agent a) node = true) : node = .agent a := by
  simpa [tree] using inside

theorem tree_cases (b : BattleId) (node : Node) :
    tree (.battle b) node = true ↔
      node = .battle b ∨ tree (child b .left) node = true ∨ tree (child b .right) node = true := by
  revert b node
  decide +kernel

theorem tree_child {b : BattleId} {side : Side} {node : Node} (inside : tree (child b side) node = true) :
    tree (.battle b) node = true := by
  rw [tree_cases]
  cases side with
  | left => exact .inr (.inl inside)
  | right => exact .inr (.inr inside)

theorem tree_sides (b : BattleId) (side : Side) (node : Node) (inside : tree (.battle b) node = true) :
    node = .battle b ∨ tree (child b side) node = true ∨ tree (child b side.other) node = true := by
  have cases' := (tree_cases b node).mp inside
  cases side with
  | left => exact cases'
  | right => exact cases'.imp_right Or.symm

theorem tree_apart (b : BattleId) (side : Side) (node : Node) (inside : tree (child b side) node = true) :
    tree (child b side.other) node = false := by
  revert b side node
  decide +kernel

theorem tree_parent (b : BattleId) (side : Side) : tree (child b side) (.battle b) = false := by
  revert b side
  decide +kernel

theorem child_ne (b : BattleId) (side : Side) : child b side ≠ .battle b := by
  intro same
  have apart := tree_parent b side
  rw [same, tree_self] at apart
  cases apart

theorem sides_ne (b : BattleId) (side : Side) : child b side ≠ child b side.other := by
  intro same
  have apart := tree_apart b side (child b side) (tree_self _)
  rw [← same, tree_self] at apart
  cases apart

-- A battle other than A has players under it only, and then an agent for its loser, or agents only.
theorem agentId_player (b : BattleId) (i : Fin 8) (early : b ≠ .A)
    (inside : tree (.battle b) (.player i) = true) : (agentId b.char).isSome = true := by
  revert b i
  decide +kernel

theorem agentId_agent (b : BattleId) (a : Fin 7) (inside : tree (.battle b) (.agent a) = true) :
    agentId b.char = none := by
  revert b a
  decide +kernel

theorem parent_some (b : BattleId) (early : b ≠ .A) : (btl b).parent ≠ none := by
  revert b
  decide

theorem tree_below (node : Node) (b : BattleId) (higher : above node = some b) (root : Node)
    (inside : tree root (.battle b) = true) : tree root node = true := by
  revert node b root
  decide +kernel

theorem parent_above (n : Fin 15) : (above (program n)).map BattleId.char = some (parent n) := by
  revert n
  decide

end SPHomework.Tournament
