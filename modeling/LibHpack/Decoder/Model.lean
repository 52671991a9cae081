import LibHpack.General.Fifo

/-!
# LibHpack.Decoder.Model — what a decoder of header blocks is for

A decoder keeps the fields that it was told to index, in rows that are numbered from the newest one on; behind them
come the static ones.  A row may be a reference: its field belongs to every block, until a block takes the reference
away.  So a block is a list of instructions, and its fields are those that the instructions give, and the references
that none of them has given already.
-/

namespace LibHpack.Decoder

open LibHpack.Fifo

/-- A name and a value. -/
abbrev Pair := List UInt8 × List UInt8

structure Row where
  pair : Pair
  referenced : Bool
  /-- A reference that the block has not given yet. -/
  pending : Bool
  deriving DecidableEq

namespace Row

def size (r : Row) : ℕ := r.pair.1.length + r.pair.2.length + 32

/-- The reference is made, or taken away; a row that becomes one is given at once. -/
def toggle (r : Row) : Row := { r with referenced := !r.referenced, pending := false }

def forget (r : Row) : Row := { r with referenced := false, pending := false }

/-- The next block starts. -/
def restart (r : Row) : Row := { r with pending := r.referenced }

end Row

/-- The rows, the oldest first, and the bound on their sizes. -/
structure State where
  rows : List Row
  max : ℕ
  deriving DecidableEq

inductive Name
  | new (name : List UInt8)
  | index (k : ℕ)

inductive Instr
  | resize (max : ℕ)
  | forget
  | indexed (num : ℕ)
  | literal (indexing : Bool) (name : Name) (value : List UInt8)

namespace State

/-- A new row is a reference. -/
def insert (s : State) (p : Pair) : State := { s with rows := Fifo.add Row.size s.max ⟨p, true, false⟩ s.rows }

variable (static : List Pair) (limit : ℕ) (s : State)

/-- The field with an index. -/
def lookup (num : ℕ) : Option Pair :=
  if num = 0 then none else (s.rows.reverse.map Row.pair ++ static)[num - 1]?

def resolve : Name → Option (List UInt8)
  | .new name => some name
  | .index k => (s.lookup static k).map Prod.fst

/-- One instruction: the state behind it, and the field that it gives. -/
def step : Instr → Option (State × Option Pair)
  | .resize max => if max ≤ limit then some (⟨evictTo Row.size max s.rows, max⟩, none) else none
  | .forget => some ({ s with rows := s.rows.map Row.forget }, none)
  | .indexed num =>
    (s.lookup static num).map fun p =>
      if num ≤ s.rows.length then
        ({ s with rows := s.rows.modify (s.rows.length - num) Row.toggle },
          if (s.rows[s.rows.length - num]?).any Row.referenced then none else some p)
      else (s.insert p, some p)
  | .literal indexing name value =>
    (s.resolve static name).map fun n => (if indexing then s.insert (n, value) else s, some (n, value))

/-- The instructions of a block. -/
def steps (s : State) : List Instr → Option (State × List Pair)
  | [] => some (s, [])
  | i :: is => do
    let (s, p) ← s.step static limit i
    let (s, ps) ← s.steps is
    return (s, p.toList ++ ps)

/-- The references that are left at the end of a block. -/
def left : List Pair := (s.rows.filter Row.pending).map Row.pair

def restart : State := { s with rows := s.rows.map Row.restart }

/-- A block: the fields of its instructions, and the references behind them. -/
def block (is : List Instr) : Option (State × List Pair × List Pair) :=
  (s.steps static limit is).map fun r => (r.1.restart, r.2, r.1.left)

/-- Block after block. -/
def blocks (s : State) : List (List Instr) → Option (State × List (List Pair × List Pair))
  | [] => some (s, [])
  | is :: iss => do
    let (s, fields) ← s.block static limit is
    let (s, rest) ← s.blocks iss
    return (s, fields :: rest)

section Runs

variable {static limit s} {r : State × Option Pair} {b : State × List Pair × List Pair} {i : Instr} {is : List Instr}
  {iss : List (List Instr)}

theorem steps_cons (h : s.step static limit i = some r) :
    s.steps static limit (i :: is) = (r.1.steps static limit is).map fun q => (q.1, r.2.toList ++ q.2) := by
  rw [steps, h]
  cases hs : r.1.steps static limit is <;> simp [hs]

theorem steps_cons_none (h : s.step static limit i = none) : s.steps static limit (i :: is) = none := by
  rw [steps, h]
  rfl

theorem blocks_cons (h : s.block static limit is = some b) :
    s.blocks static limit (is :: iss) = (b.1.blocks static limit iss).map fun q => (q.1, b.2 :: q.2) := by
  rw [blocks, h]
  cases hs : b.1.blocks static limit iss <;> simp [hs]

theorem blocks_cons_none (h : s.block static limit is = none) : s.blocks static limit (is :: iss) = none := by
  rw [blocks, h]
  rfl

end Runs

end State

end LibHpack.Decoder
