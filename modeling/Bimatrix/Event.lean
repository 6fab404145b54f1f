import Bimatrix.Path

/-! # Events

The record that a path leaves behind.
-/
namespace Bimatrix

inductive Event where
  | pivoted (swap : Swap)
  /-- More than one label was missing. -/
  | wideGap (gap : List Nat) (entering : Nat)
  | completed (pivots start : Nat)
  | startFailed (fault : Fault)
  | pivotFailed (pivots : Nat) (fault : Fault)
  | exhausted (bound start : Nat)

namespace Event

def level : Event → String
  | pivoted _ => "DEBUG"
  | wideGap _ _ => "DEBUG"
  | completed _ _ => "INFO"
  | startFailed _ => "WARN"
  | pivotFailed _ _ => "WARN"
  | exhausted _ _ => "WARN"

def message : Event → String
  | pivoted s => s!"pivot: label {s.entering} enters, label {s.leaving} leaves (row {s.position})"
  | wideGap gap entering =>
    "degenerate gap [" ++ String.intercalate ", " (gap.map toString) ++
      s!"], label {entering} enters"
  | completed pivots start =>
    s!"complementary basis reached after {pivots} pivots from label {start}"
  | startFailed fault => "warm start failed: " ++ fault.message
  | pivotFailed pivots fault => s!"pivot failed at iteration {pivots}: " ++ fault.message
  | exhausted bound start => s!"no complementary basis after {bound} pivots from label {start}"

def line (e : Event) : String := e.level ++ " " ++ e.message

/-- A gap is worth a record when it holds more than one label. -/
def ofGap : List Nat → List Event
  | entering :: other :: rest => [.wideGap (entering :: other :: rest) entering]
  | _ => []

def ofMove (move : Move) : List Event := ofGap move.gap ++ [.pivoted move.toSwap]

end Event

namespace Pair

variable {α : Type} [Scalar α] {n l m k : Nat}

/-- The record of one look at the pair, whether or not its pivot succeeds. -/
def advanceEvents (p : Pair α n l m k) (side : Player) : List Event :=
  match p.advance side with
  | .ok (some (move, _)) => Event.ofMove move
  | .ok none => []
  | .error _ => Event.ofGap p.gap

end Pair

namespace Walk

variable {α : Type} [Scalar α] {n l m k : Nat}

def events (w : Walk α n l m k) (start bound : Nat) : List Event :=
  w.moves.reverse.flatMap Event.ofMove ++
    match w.ending with
    | .complete => [.completed w.moves.length start]
    | .stuck fault => Event.ofGap w.last.gap ++ [.pivotFailed w.moves.length fault]
    | .exhausted => [.exhausted bound start]

end Walk

end Bimatrix
