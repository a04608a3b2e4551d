/-
  Rindle.Source.Strict — a push with change validation on, for every change whatsoever.

  Validation asks the primary index for the key of the change's old row. The other indexes
  are written from the change's own images, by their own sorts, so they follow the primary
  one only if the images are current there (`ImagesCurrent`). An edit that changes a
  split-edit key is pushed as two changes, each validated when its turn comes: if the new
  row's key is taken by another row, the removal is already written and sent when the
  addition is refused (`KeyFree` excludes it).

  A change goes by key: a removal drops the row with its key, an edit drops the row with the
  old key and overwrites the one with the new key (`patched`).
-/

import Rindle.Source.Runs

set_option linter.dupNamespace false

namespace Rindle

namespace MemorySource

/-- The rows after a change that goes by primary key. -/
def patched (pk : List Nat) (R : Set Row) (change : SourceChange Row) : Set Row :=
  {x | change.result = some x ∨ (x ∈ R ∧ change.Leaves (keyCmp pk) x)}

/-- What a connection's downstream holds after these deliveries. -/
def foldOutput (sent : List Delivery) (slot : Nat) (out : Set Row) : Set Row :=
  (sent.filter fun d => d.1 == slot).foldl (fun out d => applyChange out d.2) out

variable {s : MemorySource} {R : Set Row} {change : SourceChange Row} {reads : Reads}

/-! ## One index -/

/-- A key that is there is refused, and the row with it stays. -/
example : (match tryNew 2 [0] [[.int 1, .int 10]] with
    | .ok s => (s.tryPush (.add [.int 1, .int 20]) (fun _ _ => []) true).map fun p => (p.result.isOk, p.source.present [.int 1, .int 10])
    | .error _ => none) = some (false, true) := by
  decide +kernel

/-- Two rows and a wired connection that splits edits of the second column. -/
theorem splitting_ok : ∃ s0 s, tryNew 2 [0] [[.int 1, .int 10], [.int 2, .int 20]] = .ok s0 ∧
    [Op.connect (some [(0, true)]) none [1], .setConnOutput ⟨0, 0⟩].foldlM Op.run s0 = some s ∧
    s.Ok (same {r | r ∈ [[Value.int 1, .int 10], [.int 2, .int 20]]}) ∧ s.primaryKey = [0] ∧
    s.conns.splitEditKeys = [1] ∧ s.conns.hasSplitEditKeys = true := by
  obtain ⟨s0, hnew⟩ : ∃ s0, tryNew 2 [0] [[.int 1, .int 10], [.int 2, .int 20]] = .ok s0 := ⟨_, rfl⟩
  obtain ⟨s, hrun, hok, hkey, -, -, hconns⟩ := connect_new [(0, true)] [1] hnew (by decide +kernel) (by decide)
  refine ⟨s0, s, hnew, hrun, hok, hkey, ?_⟩
  rw [hconns]
  exact ⟨rfl, rfl⟩

end MemorySource

end Rindle
