/-
  Rindle.Op.TakeWindow — one push of Take repairs the window.

  The rows of a partition are a sorted list `l`; downstream holds `l.take limit`, the slot says
  how many that are and a row that ties the last (`SlotOk`). While a change is pushed the input
  already shows the list as it will be (`Serves`). Each push then sends changes that take the
  held rows to the first `limit` of the new list, none of them out of place and never more than
  `limit` held, and leaves a slot for the new list (`Take.push_repairs`). A partition that
  drains loses its slot.
-/

import Rindle.Op.Take
import Rindle.Lib.Window

set_option linter.dupNamespace false

namespace Rindle

/-! ## What downstream holds -/

/-- The rows held after a change, if it fits them. -/
@[grind] def hold (cmp : Row → Row → Ordering) (rows : List Row) : Change → Option (List Row)
  | .add n => if rows.all fun x => cmp x n.row != .eq then some (SList.insert cmp n.row rows) else none
  | .remove n => if n.row ∈ rows then some (SList.erase cmp n.row rows) else none
  | .edit n old =>
    if old.row ∈ rows && (SList.erase cmp old.row rows).all fun x => cmp x n.row != .eq then
      some (SList.insert cmp n.row (SList.erase cmp old.row rows))
    else none
  | .child _ _ _ => some rows

def holdAll (cmp : Row → Row → Ordering) (rows : List Row) (changes : List Change) : Option (List Row) :=
  changes.foldlM (hold cmp) rows

section
variable {cmp : Row → Row → Ordering} {rows : List Row} {n old : Node}

theorem hold_add (h : ∀ x ∈ rows, cmp x n.row ≠ .eq) : hold cmp rows (.add n) = some (SList.insert cmp n.row rows) := by
  rw [hold, if_pos]
  simpa using h

theorem hold_remove (h : n.row ∈ rows) : hold cmp rows (.remove n) = some (SList.erase cmp n.row rows) := by
  rw [hold, if_pos h]

theorem hold_edit (h : old.row ∈ rows) (hn : ∀ x ∈ SList.erase cmp old.row rows, cmp x n.row ≠ .eq) :
    hold cmp rows (.edit n old) = some (SList.insert cmp n.row (SList.erase cmp old.row rows)) := by
  rw [hold, if_pos]
  simpa [h] using hn

/-- A change to a row itself is about one that is held before it or after it. -/
theorem hold_primaryRow {rows' : List Row} {c : Change} (h : hold cmp rows c = some rows') (hself : ∀ n rel d, c ≠ .child n rel d) :
    c.primaryRow ∈ rows ∨ c.primaryRow ∈ rows' := by
  cases c with
  | child n rel d => exact absurd rfl (hself n rel d)
  | add n =>
    simp only [hold] at h
    split at h
    · exact Or.inr (Option.some.inj h ▸ SList.mem_insert_self)
    · cases h
  | remove n =>
    simp only [hold] at h
    split at h
    · rename_i hmem
      exact Or.inl hmem
    · cases h
  | edit n old =>
    simp only [hold] at h
    split at h
    · exact Or.inr (Option.some.inj h ▸ SList.mem_insert_self)
    · cases h

end

namespace Take

/-! ## Slots -/

/-- The `maxBound` slot is no partition's. -/
def TopSlot (st : Storage) : Prop := ∀ size bound, st maxBoundKey ≠ some (.take size bound)

/-- A slot for a partition with these rows; its bound is a row of the partition, or was. -/
def SlotOk (op : Take) (P : Row → Prop) (l : List Row) (slot : Option StorageValue) : Prop :=
  ∃ size bound, slot = some (.take size bound) ∧ SList.Window op.cmp op.limit l size bound ∧ ∀ b, bound = some b → P b

/-- The input shows the rows `l` to a fetch from `b`. -/
def Serves (op : Take) (up : Upstream) (constraint : Option Constraint) (b : Row) (l : List Row) : Prop :=
  ∀ basis reverse, ∃ nodes, up { start := some ⟨b, basis⟩, constraint, reverse } = some nodes ∧
    nodes.map Node.row = SList.scanFrom op.cmp b (basis == .after) reverse l

variable {op : Take} {P : Row → Prop} {up : Upstream} {st : Storage} {key : List UInt8} {maxBound : Option Row}
  {constraint : Option Constraint} {l l' : List Row}

theorem slotOk_cut {A B : List Row} {b bound : Row} (hc : SList.Cut op.cmp op.limit A b B) (hb : op.cmp bound b = .eq)
    (hP : P bound) : SlotOk op P (A ++ b :: B) (some (.take (A.length + 1) (some bound))) :=
  ⟨_, _, rfl, .cut hc hb, fun _ h => Option.some.inj h ▸ hP⟩

theorem setState_key (hkey : key ≠ maxBoundKey) (size : Nat) (bound : Option Row) :
    op.setState st key size bound maxBound key = some (.take size bound) := by
  unfold setState
  cases bound with
  | none => simp [Storage.set]
  | some b =>
    simp only
    split <;> simp [Storage.set, hkey]

theorem setState_frame (size : Nat) (bound : Option Row) {k : List UInt8} (hk : k ≠ key) (hm : k ≠ maxBoundKey) :
    op.setState st key size bound maxBound k = st k := by
  unfold setState
  cases bound with
  | none => simp [Storage.set, hk]
  | some b =>
    simp only
    split <;> simp [Storage.set, hk, hm]

theorem setState_top (hkey : key ≠ maxBoundKey) (htop : TopSlot st) (size : Nat) (bound : Option Row) :
    TopSlot (op.setState st key size bound maxBound) := by
  intro size' bound'
  unfold setState
  cases bound with
  | none =>
    simp only [Storage.set, if_neg hkey.symm]
    exact htop size' bound'
  | some b =>
    simp only
    split
    · simp [Storage.set]
    · simp only [Storage.set, if_neg hkey.symm]
      exact htop size' bound'

theorem getMaxBound_top (htop : TopSlot st) : ∃ mb, getMaxBound st = some mb := by
  unfold getMaxBound
  cases h : st maxBoundKey with
  | none => exact ⟨none, rfl⟩
  | some v =>
    cases v with
    | take size bound => exact absurd h (htop size bound)
    | bound r => exact ⟨some r, rfl⟩

/-- Only the slot of `key`, and the `maxBound` slot, may differ. -/
structure Writes (st : Storage) (key : List UInt8) (st' : Storage) : Prop where
  frame : ∀ k, k ≠ key → k ≠ maxBoundKey → st' k = st k
  top : TopSlot st'

theorem setState_touches (hkey : key ≠ maxBoundKey) (htop : TopSlot st) (size : Nat) (bound : Option Row) :
    Writes st key (op.setState st key size bound maxBound) :=
  ⟨fun _ hk hm => setState_frame _ _ hk hm, setState_top hkey htop _ _⟩

/-! ## A repair -/

/-- What a push sends is about rows of the partition and takes the held ones from one window to the
    other, and it touches no other partition's slot. -/
structure Repaired (op : Take) (st : Storage) (key : List UInt8) (l l' : List Row) (r : Storage × List Sent) : Prop where
  frame : ∀ k, k ≠ key → k ≠ maxBoundKey → r.1 k = st k
  top : TopSlot r.1
  rows : ∀ s ∈ r.2, s.change.primaryRow ∈ l ∨ s.change.primaryRow ∈ l'
  held : holdAll op.cmp (l.take op.limit) (r.2.map Sent.change) = some (l'.take op.limit)
  room : ∀ i, ∃ h, holdAll op.cmp (l.take op.limit) ((r.2.map Sent.change).take i) = some h ∧ h.length ≤ op.limit

theorem Repaired.quiet (htop : TopSlot st) (h : l.take op.limit = l'.take op.limit) : Repaired op st key l l' (st, []) := by
  refine ⟨fun _ _ _ => rfl, htop, fun s hs => (by cases hs), congrArg some h,
    fun i => ⟨l.take op.limit, ?_, List.length_take_le _ _⟩⟩
  cases i <;> rfl

section
variable {st' : Storage} (hst : Writes st key st')
include hst

theorem Repaired.one {s : Sent} (h : hold op.cmp (l.take op.limit) s.change = some (l'.take op.limit))
    (hself : ∀ n rel c, s.change ≠ .child n rel c) : Repaired op st key l l' (st', [s]) := by
  refine ⟨hst.frame, hst.top, fun t ht => ?_, by simp [holdAll, h], fun i => ?_⟩
  · rw [List.mem_singleton.mp ht]
    rcases hold_primaryRow h hself with h | h
    · exact Or.inl ((List.take_sublist _ _).subset h)
    · exact Or.inr ((List.take_sublist _ _).subset h)
  cases i with
  | zero => exact ⟨_, rfl, List.length_take_le _ _⟩
  | succ i => exact ⟨l'.take op.limit, by simp [holdAll, h], List.length_take_le _ _⟩

/-- A removal, then an addition: in between there is one row less. -/
theorem Repaired.two {s t : Sent} {gone new : Node} (hs : s.change = .remove gone) (ht : t.change = .add new)
    (hgone : gone.row ∈ l.take op.limit) (hnew : ∀ x ∈ SList.erase op.cmp gone.row (l.take op.limit), op.cmp x new.row ≠ .eq)
    (h : SList.insert op.cmp new.row (SList.erase op.cmp gone.row (l.take op.limit)) = l'.take op.limit) :
    Repaired op st key l l' (st', [s, t]) := by
  have h1 : hold op.cmp (l.take op.limit) (.remove gone) = some _ := hold_remove hgone
  have h2 := hold_add hnew
  have hrow : new.row ∈ l'.take op.limit := h ▸ SList.mem_insert_self
  rw [h] at h2
  refine ⟨hst.frame, hst.top, fun c hc => ?_, by simp [holdAll, hs, ht, h1, h2], fun i => ?_⟩
  · rcases List.mem_pair.mp hc with rfl | rfl
    · rw [hs]
      exact Or.inl ((List.take_sublist _ _).subset hgone)
    · rw [ht]
      exact Or.inr ((List.take_sublist _ _).subset hrow)
  have hlen : (SList.erase op.cmp gone.row (l.take op.limit)).length ≤ op.limit :=
    ((SList.erase_sublist _).length_le).trans (List.length_take_le _ _)
  match i with
  | 0 => exact ⟨_, rfl, List.length_take_le _ _⟩
  | 1 => exact ⟨_, by simp [holdAll, hs, h1], hlen⟩
  | i + 2 => exact ⟨l'.take op.limit, by simp [holdAll, hs, ht, h1, h2], List.length_take_le _ _⟩

end

/-- A call takes the rows of a partition from `l` to `l'`, and its slot with them. -/
def Repairs (op : Take) (P : Row → Prop) (st : Storage) (key : List UInt8) (l l' : List Row) (run : Option (Storage × List Sent)) : Prop :=
  ∃ r, run = some r ∧ Repaired op st key l l' r ∧ SlotOk op P l' (r.1 key)

section
variable {A B : List Row} {b bound : Row} {size : Nat} {sents : List Sent} (hc : SList.Cut op.cmp op.limit A b B) (hsize : A.length + 1 = size)
include hc hsize

/-- The bound moves to the last row of the window. -/
theorem Repairs.rebound (hkey : key ≠ maxBoundKey) (hP : P b)
    (h : Repaired op st key l (A ++ b :: B) (op.setState st key size (some b) maxBound, sents)) :
    Repairs op P st key l (A ++ b :: B) (some (op.setState st key size (some b) maxBound, sents)) := by
  refine ⟨_, rfl, h, ?_⟩
  simp only [setState_key hkey, ← hsize]
  exact slotOk_cut hc Std.ReflCmp.compare_self hP

/-- The bound stays, at the place of the last row. -/
theorem Repairs.same (hslot : st key = some (.take size (some bound))) (hb : op.cmp bound b = .eq) (hP : P bound)
    (h : Repaired op st key l (A ++ b :: B) (st, sents)) : Repairs op P st key l (A ++ b :: B) (some (st, sents)) := by
  refine ⟨_, rfl, h, ?_⟩
  show SlotOk op P _ (st key)
  rw [hslot, ← hsize]
  exact slotOk_cut hc hb hP

end

/-! ## Add -/

section
variable {A B : List Row} {b bound : Row} {node : Node}

theorem fetchN_eq (hs : Serves op up constraint bound l) (basis : Basis) (reverse : Bool) (n : Nat) :
    ∃ nodes, fetchN up bound basis constraint reverse n = some nodes ∧
      nodes.map Node.row = (SList.scanFrom op.cmp bound (basis == .after) reverse l).take n := by
  obtain ⟨nodes, hup, hrows⟩ := hs basis reverse
  exact ⟨nodes.take n, by simp [fetchN, hup], by rw [List.map_take, hrows]⟩

theorem map_row_one {nodes : List Node} {x : Row} {rest : List Row} (h : nodes.map Node.row = ([x] ++ rest).take 1) :
    ∃ nx, nodes = [nx] ∧ nx.row = x := by
  match nodes, h with
  | [nx], h => exact ⟨nx, rfl, by simpa using h⟩

theorem map_row_two {nodes : List Node} {x y : Row} (h : nodes.map Node.row = [x, y]) :
    ∃ nx ny, nodes = [nx, ny] ∧ nx.row = x ∧ ny.row = y := by
  match nodes, h with
  | [nx, ny], h =>
    have h : nx.row = x ∧ ny.row = y := by simpa using h
    exact ⟨nx, ny, rfl, h.1, h.2⟩

/-- With room the row comes in, and the bound moves if the row is past it. -/
theorem pushAdd_room (hkey : key ≠ maxBoundKey) (htop : TopSlot st) (hc : SList.Cut op.cmp op.limit A b [])
    (hb : op.cmp bound b = .eq) (hroom : A.length + 1 < op.limit) (hnew : ∀ x ∈ A ++ [b], op.cmp x node.row ≠ .eq)
    (hPb : P bound) (hPn : P node.row) :
    Repairs op P st key (A ++ [b]) (SList.insert op.cmp node.row (A ++ [b]))
      (op.pushAdd up st node key (A.length + 1) (some bound) maxBound constraint) := by
  have hlen : (SList.insert op.cmp node.row (A ++ [b])).length = (A ++ [b]).length + 1 := SList.length_insert_new hc.sorted hnew
  have hwhole : (SList.insert op.cmp node.row (A ++ [b])).take op.limit = SList.insert op.cmp node.row (A ++ [b]) :=
    List.take_of_length_le (by rw [hlen, List.length_append]; simp; omega)
  have hsort : SList.Sorted op.cmp (SList.insert op.cmp node.row (A ++ [b])) := SList.sorted_insert hc.sorted
  have hbk : op.cmp bound node.row = op.cmp b node.row := Std.TransCmp.congr_left hb
  have hsent : ∀ st', hold op.cmp ((A ++ [b]).take op.limit) (Sent.mk (.add node) st' none).change =
      some ((SList.insert op.cmp node.row (A ++ [b])).take op.limit) := by
    intro st'
    rw [hc.take, hwhole]
    exact hold_add hnew
  unfold pushAdd
  rw [if_pos hroom]
  refine ⟨_, rfl, Repaired.one (setState_touches hkey htop _ _) (hsent _) (by simp), ?_⟩
  simp only [setState_key hkey, hbk]
  cases hcmp : op.cmp b node.row with
  | eq => exact absurd hcmp (hnew b (List.mem_append_right _ List.mem_cons_self))
  | lt =>
    have hl' : SList.insert op.cmp node.row (A ++ [b]) = (A ++ [b]) ++ node.row :: [] := by
      rw [SList.insert_past hcmp hc.before]
      simp [SList.insert]
    rw [hl'] at hsort ⊢
    have hcut : SList.Cut op.cmp op.limit (A ++ [b]) node.row [] := ⟨hsort, by simp; omega, Or.inl rfl⟩
    simpa using slotOk_cut hcut Std.ReflCmp.compare_self hPn
  | gt =>
    have hl' : SList.insert op.cmp node.row (A ++ [b]) = SList.insert op.cmp node.row A ++ b :: [] :=
      SList.insert_before (SList.gt_iff_lt.mp hcmp) (by simp)
    have hlenA : (SList.insert op.cmp node.row A).length = A.length + 1 :=
      SList.length_insert_new hc.sortedA fun x hx => hnew x (List.mem_append_left _ hx)
    rw [hl'] at hsort ⊢
    have hcut : SList.Cut op.cmp op.limit (SList.insert op.cmp node.row A) b [] := ⟨hsort, by omega, Or.inl rfl⟩
    simpa [hlenA] using slotOk_cut hcut hb hPb

/-- A row comes in before the last row `b` of a window; `y` is the last before `b` then. -/
theorem insert_last (hc : SList.Cut op.cmp op.limit A b B) (hnew : ∀ x ∈ A, op.cmp x node.row ≠ .eq) (hlt : op.cmp node.row b = .lt) :
    ∃ A' y, SList.insert op.cmp node.row A = A' ++ [y] ∧ A'.length = A.length ∧ node.row ∈ A' ++ [y] ∧ ∀ x ∈ A' ++ [y], op.cmp x b = .lt := by
  have hlen : (SList.insert op.cmp node.row A).length = A.length + 1 := SList.length_insert_new hc.sortedA hnew
  have hne : SList.insert op.cmp node.row A ≠ [] := List.ne_nil_of_length_pos (by omega)
  have hlast := List.dropLast_append_getLast hne
  refine ⟨_, _, hlast.symm, by rw [List.length_dropLast, hlen, Nat.add_sub_cancel], hlast.symm ▸ SList.mem_insert_self, fun x hx => ?_⟩
  rw [hlast, SList.mem_insert hc.sortedA] at hx
  rcases hx with rfl | hx
  · exact hlt
  · exact hc.before x hx.1

/-- The last row `b` of a full window makes place for a row before it; the rows past it were `C`. -/
theorem displace {C : List Row} (hold : SList.Cut op.cmp op.limit A b C) (hc : SList.Cut op.cmp op.limit A b B)
    (hfull : A.length + 1 = op.limit) (hnew : ∀ x ∈ A, op.cmp x node.row ≠ .eq) (hlt : op.cmp node.row b = .lt) :
    ∃ A' y, SList.insert op.cmp node.row (A ++ b :: B) = A' ++ y :: b :: B ∧ A'.length = A.length ∧ node.row ∈ A' ++ [y] ∧
      (∀ x ∈ A' ++ [y], op.cmp x b = .lt) ∧ SList.Cut op.cmp op.limit A' y (b :: B) ∧
      ∀ {nb : Node} {s t : Sent} {st' : Storage}, nb.row = b → s.change = .remove nb → t.change = .add node → Writes st key st' →
        Repaired op st key (A ++ b :: C) (A' ++ y :: b :: B) (st', [s, t]) := by
  obtain ⟨A', y, hlast, hlen, hself, hbefore⟩ := insert_last hc hnew hlt
  have hl' : SList.insert op.cmp node.row (A ++ b :: B) = A' ++ y :: b :: B := by
    rw [SList.insert_before hlt hc.past, hlast, List.append_assoc]
    rfl
  have hcut : SList.Cut op.cmp op.limit A' y (b :: B) := ⟨hl' ▸ SList.sorted_insert hc.sorted, by omega, Or.inr (by omega)⟩
  have herase : SList.erase op.cmp b (A ++ [b]) = A := by
    rw [SList.erase_at Std.ReflCmp.compare_self hc.before, List.append_nil]
  refine ⟨A', y, hl', hlen, hself, hbefore, hcut, fun hnb hs ht hst => Repaired.two hst hs ht ?_ ?_ ?_⟩
  · rw [hold.take, hnb]
    exact List.mem_append_right _ List.mem_cons_self
  · rw [hold.take, hnb, herase]
    exact hnew
  · rw [hold.take, hnb, herase, hlast, hcut.take]

/-- Into a full window: the last row makes place. -/
theorem pushAdd_displace (hkey : key ≠ maxBoundKey) (htop : TopSlot st) (hc : SList.Cut op.cmp op.limit A b B)
    (hb : op.cmp bound b = .eq) (hfull : A.length + 1 = op.limit) (hnew : ∀ x ∈ A ++ b :: B, op.cmp x node.row ≠ .eq)
    (hlt : op.cmp node.row b = .lt) (hP : ∀ r ∈ SList.insert op.cmp node.row (A ++ b :: B), P r)
    (hserve : Serves op up constraint bound (SList.insert op.cmp node.row (A ++ b :: B))) :
    Repairs op P st key (A ++ b :: B) (SList.insert op.cmp node.row (A ++ b :: B))
      (op.pushAdd up st node key (A.length + 1) (some bound) maxBound constraint) := by
  obtain ⟨A', y, hl', hlen, hself, hbefore, hcut, hrep⟩ := displace hc hc hfull (fun x hx => hnew x (List.mem_append_left _ hx)) hlt
  have haround : SList.Around op.cmp bound (A' ++ [y]) [b] B := SList.around_of hb hbefore hc.past (by simp)
  have hlist : A' ++ y :: b :: B = A' ++ [y] ++ [b] ++ B := by simp
  have hbound : op.cmp node.row bound = .lt := by rw [← hlt]; exact Std.TransCmp.congr_right hb
  rw [hl'] at hserve hP ⊢
  -- both fetches find the boundary; in a window of one there is nothing before it
  obtain ⟨boundNode, rest, hfetch, hrow, hy⟩ : ∃ boundNode rest, op.fetchBoundary up bound constraint = some (boundNode :: rest) ∧
      boundNode.row = b ∧ op.boundAfter node.row rest.head? = y := by
    unfold fetchBoundary
    by_cases hone : op.limit = 1
    · obtain ⟨nodes, hf, hrows⟩ := fetchN_eq hserve .atRow false 1
      have hscan : SList.scanFrom op.cmp bound false false (A' ++ [y] ++ [b] ++ B) = [b] ++ B := haround.forward
      rw [hlist, show (Basis.atRow == Basis.after) = false from rfl, hscan] at hrows
      obtain ⟨nb, rfl, hnb⟩ := map_row_one hrows
      have hA' : A' = [] := List.length_eq_zero_iff.mp (by omega)
      have hy : node.row = y := by simpa [hA'] using hself
      exact ⟨nb, [], by rw [if_pos hone, hf], hnb, hy⟩
    · obtain ⟨nodes, hf, hrows⟩ := fetchN_eq hserve .atRow true 2
      have hscan : SList.scanFrom op.cmp bound false true (A' ++ [y] ++ [b] ++ B) = [b].reverse ++ (A' ++ [y]).reverse :=
        haround.backward
      rw [hlist, show (Basis.atRow == Basis.after) = false from rfl, hscan] at hrows
      obtain ⟨nb, ny, rfl, hnb, hny⟩ := map_row_two (by simpa using hrows)
      refine ⟨nb, [ny], by rw [if_neg hone, hf], hnb, ?_⟩
      have hle := SList.le_last hcut.window_sorted hself
      simp [boundAfter, hny, hle]
  unfold pushAdd
  rw [if_neg (by omega)]
  simp only [hbound, if_true, hfetch, hy, Option.bind_eq_bind, Option.bind_some]
  exact .rebound hcut (by omega) hkey (hP y (by simp)) (hrep hrow rfl rfl (setState_touches hkey htop _ _))

/-- Past a full window: dropped. -/
theorem take_insert_past (hc : SList.Cut op.cmp op.limit A b B) (hfull : A.length + 1 = op.limit) {k : Row} (hk : op.cmp b k = .lt) :
    SList.Cut op.cmp op.limit A b (SList.insert op.cmp k B) ∧
      SList.insert op.cmp k (A ++ b :: B) = A ++ b :: SList.insert op.cmp k B := by
  have hl' : SList.insert op.cmp k (A ++ b :: B) = A ++ b :: SList.insert op.cmp k B := SList.insert_past hk hc.before
  exact ⟨⟨hl' ▸ SList.sorted_insert hc.sorted, hc.le, Or.inr hfull⟩, hl'⟩

theorem pushAdd_repairs (hkey : key ≠ maxBoundKey) (htop : TopSlot st) (hn : 0 < op.limit) {size : Nat} {bound : Option Row}
    (hslot : st key = some (.take size bound)) (hw : SList.Window op.cmp op.limit l size bound)
    (hnew : ∀ x ∈ l, op.cmp x node.row ≠ .eq) (hPb : ∀ b, bound = some b → P b)
    (hP : ∀ r ∈ SList.insert op.cmp node.row l, P r)
    (hserve : ∀ b, bound = some b → Serves op up constraint b (SList.insert op.cmp node.row l)) :
    Repairs op P st key l (SList.insert op.cmp node.row l) (op.pushAdd up st node key size bound maxBound constraint) := by
  cases hw with
  | empty =>
    have hcut : SList.Cut op.cmp op.limit [] node.row [] := ⟨List.pairwise_singleton _ _, hn, Or.inl rfl⟩
    unfold pushAdd
    rw [if_pos hn]
    refine .rebound hcut rfl hkey (hP _ SList.mem_insert_self) (.one (setState_touches hkey htop _ _) ?_ (by simp))
    rw [List.take_nil, hcut.take]
    exact hold_add (by simp)
  | @cut A b B bound hc hb =>
    by_cases hroom : A.length + 1 < op.limit
    · have hB : B = [] := hc.full.resolve_right (by omega)
      subst hB
      exact pushAdd_room hkey htop hc hb hroom hnew (hPb bound rfl) (hP _ SList.mem_insert_self)
    · have hfull : A.length + 1 = op.limit := by
        have := hc.le
        omega
      cases hcmp : op.cmp node.row b with
      | lt => exact pushAdd_displace hkey htop hc hb hfull hnew hcmp hP (hserve bound rfl)
      | eq => exact absurd (SList.eq_comm.mp hcmp) (hnew b (by simp))
      | gt =>
        obtain ⟨hc', hl'⟩ := take_insert_past hc hfull (SList.gt_iff_lt.mp hcmp)
        have hbound : op.cmp node.row bound = .gt := by rw [← hcmp]; exact Std.TransCmp.congr_right hb
        rw [hl']
        unfold pushAdd
        simp only [hroom, hbound, if_false, reduceCtorEq]
        exact .same hc' rfl hslot hb (hPb bound rfl) (.quiet htop (by rw [hc.take, hc'.take]))

/-! ## Remove -/

/-- The backfill scan goes over the rows at the bound to the first one past it. -/
theorem backfill_eq {M : List Row} (hM : ∀ x ∈ M, op.cmp x bound = .eq) (hB : ∀ y ∈ B, op.cmp y bound = .gt) :
    ∀ (nodes : List Node) (last : Option (Node × Bool)), nodes.map Node.row = M ++ B →
      (∃ y B' ny, B = y :: B' ∧ op.backfill bound last nodes = some (ny, true) ∧ ny.row = y) ∨
      (B = [] ∧ (op.backfill bound last nodes).map (fun nb => nb.1.row) = M.getLast?.or (last.map fun nb => nb.1.row) ∧
        ((∀ nb, last = some nb → nb.2 = false) → ∀ nb, op.backfill bound last nodes = some nb → nb.2 = false)) := by
  induction M with
  | nil =>
    intro nodes last hrows
    cases B with
    | nil =>
      obtain rfl : nodes = [] := by simpa using hrows
      exact Or.inr ⟨rfl, by simp [backfill], fun h => h⟩
    | cons y B =>
      match nodes, hrows with
      | ny :: nodes, hrows =>
        have hny : ny.row = y := (List.cons.inj hrows).1
        exact Or.inl ⟨y, B, ny, rfl, by simp [backfill, hny, hB y List.mem_cons_self], hny⟩
  | cons m M ih =>
    intro nodes last hrows
    match nodes, hrows with
    | nm :: nodes, hrows =>
      obtain ⟨hnm, hrows⟩ := List.cons.inj hrows
      have hstep : op.backfill bound last (nm :: nodes) = op.backfill bound (some (nm, false)) nodes := by
        rw [backfill, hnm, hM m List.mem_cons_self]
        rfl
      rw [hstep]
      rcases ih (fun x hx => hM x (List.mem_cons_of_mem _ hx)) nodes (some (nm, false)) hrows with h | ⟨hB', hlast, hflag⟩
      · exact Or.inl h
      · refine Or.inr ⟨hB', ?_, fun _ => hflag (by simp)⟩
        rw [hlast]
        cases M with
        | nil => simpa using hnm
        | cons x M => simp [List.getLast?_cons]

/-- The next bound: the first row past the old one if there is one, else the last row left. -/
theorem nextBound_eq {X M : List Row} (ha : SList.Around op.cmp bound X M B) (hserve : Serves op up constraint bound (X ++ M ++ B)) :
    ∃ nb, op.nextBound up bound constraint = some nb ∧
      ((∃ y B' ny, B = y :: B' ∧ nb = some (ny, true) ∧ ny.row = y) ∨
        (B = [] ∧ nb.map (fun nb => nb.1.row) = (X ++ M).getLast? ∧ ∀ p, nb = some p → p.2 = false)) := by
  obtain ⟨before, hbefore, hbrows⟩ := fetchN_eq hserve .after true 1
  rw [show (Basis.after == Basis.after) = true from rfl, ha.backwardAfter] at hbrows
  obtain ⟨nodes, hup, hrows⟩ := hserve .atRow false
  rw [show (Basis.atRow == Basis.after) = false from rfl, ha.forward] at hrows
  have hlast : before.head?.map Node.row = X.getLast? := by
    rw [← List.head?_map, hbrows, List.getLast?_eq_head?_reverse]
    cases X.reverse <;> rfl
  -- the row before the bound is no refill, so the scan goes on
  have hflag : ∀ nb, (before.head?.map fun bbn => (bbn, op.cmp bbn.row bound == .gt)) = some nb → nb.2 = false := by
    intro nb hnb
    obtain ⟨bbn, hbbn, rfl⟩ := Option.map_eq_some_iff.mp hnb
    have hmem : bbn.row ∈ X := by
      rw [hbbn, Option.map_some] at hlast
      exact List.mem_of_getLast? hlast.symm
    simp [ha.before _ hmem]
  have hany : ((before.head?.map fun bbn => (bbn, op.cmp bbn.row bound == .gt)).any fun nb => nb.2) = false := by
    rw [Option.any_eq_false]
    intro nb hnb
    simp [hflag nb hnb]
  refine ⟨op.backfill bound (before.head?.map fun bbn => (bbn, op.cmp bbn.row bound == .gt)) nodes, ?_, ?_⟩
  · simp only [nextBound, hbefore, hany, hup, Option.bind_eq_bind, Option.bind_some, Option.map_some, Bool.false_eq_true,
      if_false]
  rcases backfill_eq ha.at_ ha.past nodes _ hrows with h | ⟨hB, hb, hf⟩
  · exact Or.inl h
  · refine Or.inr ⟨hB, ?_, hf hflag⟩
    rw [hb, List.getLast?_append, ← hlast, Option.map_map]
    rfl

/-- A slot for the partition, or none for a drained partition of a partitioned Take. -/
def KeptOrDrained (op : Take) (P : Row → Prop) (l : List Row) (slot : Option StorageValue) : Prop :=
  SlotOk op P l slot ∨ (l = [] ∧ slot = none ∧ op.partitionKey.isSome = true)

theorem pushRemove_shrink {size : Nat} {nb : Option (Node × Bool)} (hle : op.cmp node.row bound ≠ .gt)
    (hnext : op.nextBound up bound constraint = some nb) (hflag : ∀ p, nb = some p → p.2 = false) :
    op.pushRemove up st node key size (some bound) maxBound constraint =
      if op.partitionKey.isSome && size - 1 == 0 then
        if (nb.map fun nb => nb.1.row).isSome then none else some (st.del key, [⟨.remove node, st.del key, none⟩])
      else
        some (op.setState st key (size - 1) (nb.map fun nb => nb.1.row) maxBound,
          [⟨.remove node, op.setState st key (size - 1) (nb.map fun nb => nb.1.row) maxBound, none⟩]) := by
  unfold pushRemove
  simp only [hle, if_false, hnext, Option.bind_eq_bind, Option.bind_some]
  cases nb with
  | none => rfl
  | some p =>
    obtain ⟨n, flag⟩ := p
    obtain rfl : flag = false := hflag _ rfl
    rfl

/-- A row of the window goes: what is left of the window is `X ++ M`, with the bound row in `M` if it is
    still there. -/
theorem pushRemove_inside (hkey : key ≠ maxBoundKey) (htop : TopSlot st) (hc : SList.Cut op.cmp op.limit A b B)
    (hle : op.cmp node.row bound ≠ .gt) {X M : List Row} (ha : SList.Around op.cmp bound X M B) (hmem : node.row ∈ A ++ [b])
    (herase : SList.erase op.cmp node.row (A ++ [b]) = X ++ M) (hlen : (X ++ M).length = A.length)
    (hpast : ∀ x ∈ X ++ M, ∀ y ∈ B, op.cmp x y = .lt) (hP : ∀ r ∈ X ++ M ++ B, P r)
    (hserve : Serves op up constraint bound (X ++ M ++ B)) :
    ∃ r, op.pushRemove up st node key (A.length + 1) (some bound) maxBound constraint = some r ∧
      Repaired op st key (A ++ b :: B) (X ++ M ++ B) r ∧ KeptOrDrained op P (X ++ M ++ B) (r.1 key) := by
  obtain ⟨nb, hnext, hnb⟩ := nextBound_eq ha hserve
  have hsorted : SList.Sorted op.cmp (X ++ M) := herase ▸ SList.sorted_erase hc.window_sorted
  rcases hnb with ⟨y, B', ny, rfl, rfl, hny⟩ | ⟨rfl, hlast, hflag⟩
  · -- a refill
    unfold pushRemove
    simp only [hle, if_false, hnext, Option.bind_eq_bind, Option.bind_some]
    have hfull : A.length + 1 = op.limit := hc.full.resolve_left (by simp)
    have hcut : SList.Cut op.cmp op.limit (X ++ M) y B' :=
      ⟨SList.sorted_append.mpr ⟨hsorted, hc.sortedB, hpast⟩, by omega, Or.inr (by omega)⟩
    have hnew : ∀ x ∈ X ++ M, op.cmp x y = .lt := fun x hx => hpast x hx y List.mem_cons_self
    refine ⟨_, rfl, ?_, Or.inl ?_⟩
    · refine Repaired.two (setState_touches hkey htop _ _) rfl rfl ?_ ?_ ?_
      · rw [hc.take]
        exact hmem
      · rw [hc.take, herase, hny]
        intro x hx heq
        rw [hnew x hx] at heq
        cases heq
      · rw [hc.take, herase, hny, hcut.take]
        exact SList.insert_all_before hnew
    · simp only [setState_key hkey, hny]
      have hslot := slotOk_cut hcut Std.ReflCmp.compare_self (hP y (by simp))
      rw [hlen] at hslot
      exact hslot
  · -- nothing past the bound: the window shrinks
    have hn := hc.le
    have hsent : hold op.cmp ((A ++ [b]).take op.limit) (.remove node) = some ((X ++ M ++ []).take op.limit) := by
      rw [hc.take, hold_remove hmem, herase, List.append_nil, List.take_of_length_le (by omega)]
    rw [pushRemove_shrink hle hnext hflag, hlast, Nat.add_sub_cancel]
    by_cases hdrain : op.partitionKey.isSome = true ∧ A.length = 0
    · have hnil : X ++ M = [] := List.length_eq_zero_iff.mp (by omega)
      refine ⟨(st.del key, [⟨.remove node, st.del key, none⟩]), by simp [hdrain, hnil], ?_, Or.inr ?_⟩
      · refine Repaired.one ⟨fun k hk _ => by simp [Storage.del, hk], fun size bound => ?_⟩ hsent (by simp)
        simp only [Storage.del, if_neg hkey.symm]
        exact htop size bound
      · exact ⟨by simp [hnil], by simp [Storage.del], hdrain.1⟩
    · have hif : (op.partitionKey.isSome && A.length == 0) = false := by
        rw [Bool.eq_false_iff]
        simpa using hdrain
      simp only [hif, Bool.false_eq_true, if_false]
      refine ⟨_, rfl, Repaired.one (setState_touches hkey htop _ _) hsent (by simp), Or.inl ?_⟩
      simp only [setState_key hkey, ← hlen, List.append_nil]
      have hw := SList.exists_window hsorted hc.pos (fun a => Std.ReflCmp.compare_self)
      rw [List.take_of_length_le (by omega)] at hw
      refine ⟨_, _, rfl, hw, fun y hy => hP y ?_⟩
      rw [List.append_nil]
      exact List.mem_of_getLast? hy

theorem pushRemove_repairs (hkey : key ≠ maxBoundKey) (htop : TopSlot st) {size : Nat} {bound : Option Row}
    (hslot : st key = some (.take size bound)) (hw : SList.Window op.cmp op.limit l size bound) (hmem : node.row ∈ l)
    (hPb : ∀ b, bound = some b → P b) (hP : ∀ r ∈ SList.erase op.cmp node.row l, P r)
    (hserve : ∀ b, bound = some b → Serves op up constraint b (SList.erase op.cmp node.row l)) :
    ∃ r, op.pushRemove up st node key size bound maxBound constraint = some r ∧
      Repaired op st key l (SList.erase op.cmp node.row l) r ∧
      KeptOrDrained op P (SList.erase op.cmp node.row l) (r.1 key) := by
  cases hw with
  | empty => cases hmem
  | @cut A b B bound hc hb =>
    have hbound : op.cmp node.row bound = op.cmp node.row b := Std.TransCmp.congr_right hb
    have hserve := hserve bound rfl
    cases hcmp : op.cmp node.row b with
    | gt =>
      have hl' : SList.erase op.cmp node.row (A ++ b :: B) = A ++ b :: SList.erase op.cmp node.row B :=
        SList.erase_past (SList.gt_iff_lt.mp hcmp) hc.before
      have hfull : A.length + 1 = op.limit := by
        refine hc.full.resolve_left fun hB => ?_
        subst hB
        have := SList.le_last hc.window_sorted hmem
        exact this hcmp
      have hcut : SList.Cut op.cmp op.limit A b (SList.erase op.cmp node.row B) :=
        ⟨hl' ▸ SList.sorted_erase hc.sorted, hc.le, Or.inr hfull⟩
      refine ⟨(st, []), by simp [pushRemove, hbound, hcmp], Repaired.quiet htop (by rw [hl', hc.take, hcut.take]), Or.inl ?_⟩
      show SlotOk op P _ (st key)
      rw [hl', hslot]
      exact slotOk_cut hcut hb (hPb bound rfl)
    | eq =>
      -- the bound row itself goes
      have hl' : SList.erase op.cmp node.row (A ++ b :: B) = A ++ [] ++ B := by
        rw [SList.erase_at hcmp hc.before, List.append_nil]
      have hmem' : node.row ∈ A ++ [b] := by
        have hbb : node.row = b := hc.sorted.eq_of_cmp hmem (by simp) hcmp
        simp [hbb]
      rw [hl'] at hserve hP ⊢
      refine pushRemove_inside hkey htop hc (by rw [hbound, hcmp]; decide) (SList.around_of hb hc.before hc.past (by simp)) hmem'
        ?_ (by simp) ?_ hP hserve
      · rw [SList.erase_at hcmp hc.before]
      · intro x hx y hy
        exact hc.across x (by simpa using hx) y hy
    | lt =>
      have hl' : SList.erase op.cmp node.row (A ++ b :: B) = SList.erase op.cmp node.row A ++ [b] ++ B := by
        rw [SList.erase_before hcmp hc.past, List.append_assoc]
        rfl
      have hmemA : node.row ∈ A := by
        rcases List.mem_append.mp hmem with h | h
        · exact h
        · exfalso
          rcases List.mem_cons.mp h with h | h
          · rw [h, show op.cmp b b = .eq from Std.ReflCmp.compare_self] at hcmp
            cases hcmp
          · exact SList.not_lt_of_lt (hc.past _ h) hcmp
      have hlenA := SList.length_erase_mem hc.sortedA hmemA
      have hsub : ∀ x ∈ SList.erase op.cmp node.row A, x ∈ A := fun x hx => (SList.erase_sublist A).subset hx
      rw [hl'] at hserve hP ⊢
      refine pushRemove_inside hkey htop hc (by rw [hbound, hcmp]; decide)
        (SList.around_of hb (fun x hx => hc.before x (hsub x hx)) hc.past (by simp)) (List.mem_append_left _ hmemA)
        ?_ (by rw [List.length_append, List.length_singleton]; exact hlenA) ?_ hP hserve
      · exact SList.erase_before hcmp (by simp)
      · intro x hx y hy
        rcases List.mem_append.mp hx with hx | hx
        · exact hc.across x (hsub x hx) y hy
        · rw [List.mem_singleton.mp hx]
          exact hc.past y hy

/-! ## Edit -/

variable {old : Node}

/-- The edit goes on as it is: both rows are in the window. -/
theorem Repaired.edit {st' : Storage} (hst : Writes st key st') (hc : SList.Cut op.cmp op.limit A b B) (hold : old.row ∈ A ++ [b])
    (hnew : ∀ x ∈ SList.erase op.cmp old.row (A ++ [b]), op.cmp x node.row ≠ .eq) {A' B' : List Row} {y : Row}
    (hc' : SList.Cut op.cmp op.limit A' y B')
    (h : SList.insert op.cmp node.row (SList.erase op.cmp old.row (A ++ [b])) = A' ++ [y]) :
    Repaired op st key (A ++ b :: B) (A' ++ y :: B') (st', [⟨.edit node old, st', none⟩]) := by
  refine Repaired.one hst ?_ (by simp)
  show Rindle.hold op.cmp _ (.edit node old) = _
  rw [hc.take, hc'.take, hold_edit hold hnew, h]

/-- The edited row leaves its place for one past the bound: it stays the last of the window, or the first
    row past the bound takes its place. `Z` is what the window keeps. -/
theorem edit_past_cases (hc : SList.Cut op.cmp op.limit A b B) (hold : old.row ∈ A ++ [b]) {Z : List Row}
    (hZ : SList.erase op.cmp old.row (A ++ [b]) = Z) (hlen : Z.length = A.length) (hZB : ∀ x ∈ Z, ∀ y ∈ B, op.cmp x y = .lt)
    (hZn : ∀ x ∈ Z, op.cmp x node.row = .lt) (hnewB : ∀ x ∈ B, op.cmp x node.row ≠ .eq) (hbn : op.cmp b node.row = .lt) :
    ∃ y B', SList.insert op.cmp node.row B = y :: B' ∧ SList.Cut op.cmp op.limit Z y B' ∧ (∀ z ∈ y :: B', op.cmp b z = .lt) ∧
      ((y = node.row ∧ ∀ {st'}, Writes st key st' → Repaired op st key (A ++ b :: B) (Z ++ y :: B') (st', [⟨.edit node old, st', none⟩])) ∨
        (op.cmp y node.row ≠ .eq ∧ ∀ {ny : Node} {s t : Sent} {st'}, ny.row = y → s.change = .remove old → t.change = .add ny →
          Writes st key st' → Repaired op st key (A ++ b :: B) (Z ++ y :: B') (st', [s, t]))) := by
  have hsortZ : SList.Sorted op.cmp Z := hZ ▸ SList.sorted_erase hc.window_sorted
  have hne : ∀ {x z : Row}, op.cmp x z = .lt → op.cmp x z ≠ .eq := fun h h' => by rw [h] at h'; cases h'
  obtain ⟨y, B', hins, hy⟩ := SList.insert_head hnewB
  have hsort : SList.Sorted op.cmp (Z ++ y :: B') := by
    rw [← hins]
    refine SList.sorted_append.mpr ⟨hsortZ, SList.sorted_insert hc.sortedB, fun x hx z hz => ?_⟩
    rcases (SList.mem_insert hc.sortedB).mp hz with rfl | hz
    · exact hZn x hx
    · exact hZB x hx z hz.1
  have hZy : ∀ x ∈ Z, op.cmp x y = .lt := fun x hx => (SList.sorted_append.mp hsort).2.2 x hx y List.mem_cons_self
  have hfull : B' = [] ∨ Z.length + 1 = op.limit := by
    rcases hc.full with rfl | h
    · rcases hy with ⟨-, h⟩ | ⟨-, h⟩
      · exact Or.inl h
      · exact absurd rfl h
    · exact Or.inr (by omega)
  have hcut : SList.Cut op.cmp op.limit Z y B' := ⟨hsort, by have := hc.le; omega, hfull⟩
  refine ⟨y, B', hins, hcut, fun z hz => ?_, ?_⟩
  · rw [← hins, SList.mem_insert hc.sortedB] at hz
    rcases hz with rfl | hz
    · exact hbn
    · exact hc.past z hz.1
  rcases hy with ⟨rfl, -⟩ | ⟨hlt, -⟩
  · refine Or.inl ⟨rfl, fun hst => Repaired.edit hst hc hold ?_ hcut ?_⟩
    · rw [hZ]
      exact fun x hx => hne (hZn x hx)
    · rw [hZ]
      exact SList.insert_all_before hZn
  · refine Or.inr ⟨hne hlt, fun hny hs ht hst => Repaired.two hst hs ht ?_ ?_ ?_⟩
    · rw [hc.take]
      exact hold
    · rw [hc.take, hZ, hny]
      exact fun x hx => hne (hZy x hx)
    · rw [hc.take, hZ, hny, hcut.take]
      exact SList.insert_all_before hZy

section
variable {L : List Row} (hkey : op.keyFromRow old.row ≠ maxBoundKey) (htop : TopSlot st)
  (hpart : op.partitionKey.all (partitionKeyUnchanged old.row node.row) = true)
  (hslot : st (op.keyFromRow old.row) = some (.take (A.length + 1) (some bound))) (hc : SList.Cut op.cmp op.limit A b B)
  (hb : op.cmp bound b = .eq) (hPb : P bound) (hP : ∀ r ∈ SList.insert op.cmp node.row L, P r)
  (hserve : Serves op up (op.constraintFor old.row) bound (SList.insert op.cmp node.row L)) (hnew : ∀ x ∈ L, op.cmp x node.row ≠ .eq)
include hkey htop hpart hslot hc hb hPb hP hserve hnew

/-- The bound row is edited. -/
theorem pushEdit_at (hL : A ++ B = L) (hold : old.row = b) :
    Repairs op P st (op.keyFromRow old.row) (A ++ b :: B) (SList.insert op.cmp node.row L) (op.pushEdit up st node old) := by
  subst hL
  obtain ⟨maxBound, hmax⟩ := getMaxBound_top htop
  have hcmpOld : op.cmp old.row bound = .eq := by rw [hold]; exact SList.eq_comm.mp hb
  have hcmpNew : op.cmp node.row bound = op.cmp node.row b := Std.TransCmp.congr_right hb
  have hmem : old.row ∈ A ++ [b] := by simp [hold]
  have herase : SList.erase op.cmp old.row (A ++ [b]) = A := by
    rw [hold, SList.erase_at Std.ReflCmp.compare_self hc.before, List.append_nil]
  have hnewA : ∀ x ∈ A, op.cmp x node.row ≠ .eq := fun x hx => hnew x (List.mem_append_left _ hx)
  have hsort' : SList.Sorted op.cmp (SList.insert op.cmp node.row (A ++ B)) := SList.sorted_insert (hc.sorted.sublist (by simp))
  unfold pushEdit
  simp only [hpart, if_true, getState, hslot, hmax, hcmpOld, hcmpNew, Option.bind_eq_bind, Option.bind_some]
  cases hcmp : op.cmp node.row b with
  | eq =>
    -- still at its place: the slot keeps the old version of the row
    have hbefore : ∀ x ∈ A, op.cmp x node.row = .lt := fun x hx =>
      Std.TransCmp.lt_of_lt_of_eq (hc.before x hx) (SList.eq_comm.mp hcmp)
    have hpast : ∀ y ∈ B, op.cmp y node.row = .gt := fun y hy =>
      SList.gt_iff_lt.mpr (Std.TransCmp.lt_of_eq_of_lt hcmp (hc.past y hy))
    have hl' : SList.insert op.cmp node.row (A ++ B) = A ++ node.row :: B := by
      rw [SList.insert_append_left hbefore, ← List.nil_append B, SList.insert_append_right hpast]
      rfl
    rw [hl'] at hsort' ⊢
    have hcut : SList.Cut op.cmp op.limit A node.row B := ⟨hsort', hc.le, hc.full⟩
    refine .same hcut rfl hslot (Std.TransCmp.eq_trans hb (SList.eq_comm.mp hcmp)) hPb
      (.edit ⟨fun _ _ _ => rfl, htop⟩ hc hmem (by rw [herase]; exact hnewA) hcut ?_)
    rw [herase]
    exact SList.insert_all_before hbefore
  | lt =>
    have hpast : ∀ y ∈ B, op.cmp y node.row = .gt := fun y hy => SList.gt_iff_lt.mpr (SList.lt_trans hcmp (hc.past y hy))
    obtain ⟨A', y, hlast, hlen, hself, hinA⟩ := insert_last hc hnewA hcmp
    have hl' : SList.insert op.cmp node.row (A ++ B) = A' ++ y :: B := by
      rw [SList.insert_append_right hpast, hlast, List.append_assoc]
      rfl
    rw [hl'] at hsort' hserve hP ⊢
    have hcut : SList.Cut op.cmp op.limit A' y B := ⟨hsort', hlen ▸ hc.le, hlen ▸ hc.full⟩
    have hedit : ∀ {st'}, Writes st (op.keyFromRow old.row) st' →
        Repaired op st (op.keyFromRow old.row) (A ++ b :: B) (A' ++ y :: B) (st', [⟨.edit node old, st', none⟩]) :=
      fun hst => .edit hst hc hmem (by rw [herase]; exact hnewA) hcut (by rw [herase, hlast])
    by_cases hone : op.limit = 1
    · have hA' : A' = [] := List.length_eq_zero_iff.mp (by have := hcut.le; omega)
      have hy : node.row = y := by simpa [hA'] using hself
      simp only [hone, if_true, hy]
      exact .rebound hcut (by rw [hlen]) hkey (hP y (by simp)) (hedit (setState_touches hkey htop _ _))
    · obtain ⟨nodes, hf, hrows⟩ := fetchN_eq hserve .after true 1
      have haround : SList.Around op.cmp bound (A' ++ [y]) [] B := SList.around_of hb hinA hc.past (by simp)
      have hscan : SList.scanFrom op.cmp bound true true (A' ++ y :: B) = (A' ++ [y]).reverse := by
        simpa using haround.backwardAfter
      rw [show (Basis.after == Basis.after) = true from rfl, hscan, List.reverse_append] at hrows
      obtain ⟨ny, rfl, hny⟩ := map_row_one hrows
      simp only [hone, if_false, hf, Option.bind_some, List.head?_cons, hny]
      exact .rebound hcut (by rw [hlen]) hkey (hP y (by simp)) (hedit (setState_touches hkey htop _ _))
  | gt =>
    have hbn : op.cmp b node.row = .lt := SList.gt_iff_lt.mp hcmp
    have hbefore : ∀ x ∈ A, op.cmp x node.row = .lt := fun x hx => SList.lt_trans (hc.before x hx) hbn
    obtain ⟨y, B', hins, hcut, hby, hcases⟩ := edit_past_cases hc hmem herase rfl hc.across hbefore
      (fun x hx => hnew x (List.mem_append_right _ hx)) hbn
    rw [SList.insert_append_left hbefore, hins] at hserve hP ⊢
    obtain ⟨nodes, hf, hrows⟩ := fetchN_eq hserve .atRow false 1
    have haround : SList.Around op.cmp bound A [] (y :: B') := SList.around_of hb hc.before hby (by simp)
    have hscan : SList.scanFrom op.cmp bound false false (A ++ y :: B') = [y] ++ B' := by
      simpa using haround.forward
    rw [show (Basis.atRow == Basis.after) = false from rfl, hscan] at hrows
    obtain ⟨ny, rfl, hny⟩ := map_row_one hrows
    simp only [hf, Option.bind_some, List.head?_cons, hny]
    rcases hcases with ⟨hyn, hrep⟩ | ⟨hne, hrep⟩
    · rw [if_pos (by rw [hyn]; exact Std.ReflCmp.compare_self), ← hyn]
      exact .rebound hcut rfl hkey (hP y (by simp)) (hrep (setState_touches hkey htop _ _))
    · rw [if_neg hne]
      exact .rebound hcut rfl hkey (hP y (by simp)) (hrep hny rfl rfl (setState_touches hkey htop _ _))

/-- A row outside the window is edited. -/
theorem pushEdit_past (hL : A ++ b :: SList.erase op.cmp old.row B = L) (hold : old.row ∈ B) :
    Repairs op P st (op.keyFromRow old.row) (A ++ b :: B) (SList.insert op.cmp node.row L) (op.pushEdit up st node old) := by
  subst hL
  obtain ⟨maxBound, hmax⟩ := getMaxBound_top htop
  have hcmpOld : op.cmp old.row bound = .gt := by
    rw [SList.gt_iff_lt]
    exact Std.TransCmp.lt_of_eq_of_lt hb (hc.past _ hold)
  have hcmpNew : op.cmp node.row bound = op.cmp node.row b := Std.TransCmp.congr_right hb
  have hfull : A.length + 1 = op.limit := hc.full.resolve_left (List.ne_nil_of_mem hold)
  have hc1 : SList.Cut op.cmp op.limit A b (SList.erase op.cmp old.row B) :=
    ⟨hc.sorted.sublist ((List.Sublist.refl A).append ((SList.erase_sublist B).cons_cons b)), hc.le, Or.inr hfull⟩
  unfold pushEdit
  simp only [hpart, if_true, getState, hslot, hmax, hcmpOld, hcmpNew, Option.bind_eq_bind, Option.bind_some]
  cases hcmp : op.cmp node.row b with
  | eq => exact absurd (SList.eq_comm.mp hcmp) (hnew b (by simp))
  | gt =>
    obtain ⟨hc', hl'⟩ := take_insert_past hc1 hfull (SList.gt_iff_lt.mp hcmp)
    rw [hl']
    exact .same hc' rfl hslot hb hPb (.quiet htop (by rw [hc.take, hc'.take]))
  | lt =>
    obtain ⟨A', y, hl', hlen, -, hbefore, hcut, hrep⟩ := displace hc hc1 hfull (fun x hx => hnew x (List.mem_append_left _ hx)) hcmp
    rw [hl'] at hserve hP ⊢
    obtain ⟨nodes, hf, hrows⟩ := fetchN_eq hserve .atRow true 2
    have haround : SList.Around op.cmp bound (A' ++ [y]) [b] (SList.erase op.cmp old.row B) :=
      SList.around_of hb hbefore hc1.past (by simp)
    have hscan : SList.scanFrom op.cmp bound false true (A' ++ y :: b :: SList.erase op.cmp old.row B) =
        [b].reverse ++ (A' ++ [y]).reverse := by
      have h := haround.backward
      rwa [List.append_assoc, List.append_assoc] at h
    rw [show (Basis.atRow == Basis.after) = false from rfl, hscan] at hrows
    obtain ⟨nb, ny, rfl, hnb, hny⟩ := map_row_two (by simpa using hrows)
    simp only [hf, Option.bind_some, hny]
    exact .rebound hcut (by rw [hlen]) hkey (hP y (by simp)) (hrep hnb rfl rfl (setState_touches hkey htop _ _))

/-- A row of the window before its last is edited. -/
theorem pushEdit_before (hL : SList.erase op.cmp old.row A ++ b :: B = L) (hold : old.row ∈ A) :
    Repairs op P st (op.keyFromRow old.row) (A ++ b :: B) (SList.insert op.cmp node.row L) (op.pushEdit up st node old) := by
  subst hL
  obtain ⟨maxBound, hmax⟩ := getMaxBound_top htop
  have hcmpOld : op.cmp old.row bound = .lt := Std.TransCmp.lt_of_lt_of_eq (hc.before _ hold) (SList.eq_comm.mp hb)
  have hcmpNew : op.cmp node.row bound = op.cmp node.row b := Std.TransCmp.congr_right hb
  have hmem : old.row ∈ A ++ [b] := List.mem_append_left _ hold
  have herase : SList.erase op.cmp old.row (A ++ [b]) = SList.erase op.cmp old.row A ++ [b] :=
    SList.erase_before (hc.before _ hold) (by simp)
  have hlenX := SList.length_erase_mem hc.sortedA hold
  have hsub : ∀ x ∈ SList.erase op.cmp old.row A, x ∈ A := fun x hx => (SList.erase_sublist A).subset hx
  have hbeforeX : ∀ x ∈ SList.erase op.cmp old.row A, op.cmp x b = .lt := fun x hx => hc.before x (hsub x hx)
  have hsort : SList.Sorted op.cmp (SList.erase op.cmp old.row A ++ b :: B) :=
    hc.sorted.sublist ((SList.erase_sublist A).append (List.Sublist.refl _))
  unfold pushEdit
  simp only [hpart, if_true, getState, hslot, hmax, hcmpOld, hcmpNew, Option.bind_eq_bind, Option.bind_some]
  cases hcmp : op.cmp node.row b with
  | eq => exact absurd (SList.eq_comm.mp hcmp) (hnew b (by simp))
  | lt =>
    have hl' : SList.insert op.cmp node.row (SList.erase op.cmp old.row A ++ b :: B) =
        SList.insert op.cmp node.row (SList.erase op.cmp old.row A) ++ b :: B := SList.insert_before hcmp hc.past
    have hlen : (SList.insert op.cmp node.row (SList.erase op.cmp old.row A)).length = A.length := by
      rw [SList.length_insert_new (hc.sortedA.sublist (SList.erase_sublist A)) fun x hx => hnew x (List.mem_append_left _ hx)]
      exact hlenX
    have hcut : SList.Cut op.cmp op.limit (SList.insert op.cmp node.row (SList.erase op.cmp old.row A)) b B :=
      ⟨hl' ▸ SList.sorted_insert hsort, hlen ▸ hc.le, hlen ▸ hc.full⟩
    rw [hl']
    refine .same hcut (by rw [hlen]) hslot hb hPb (.edit ⟨fun _ _ _ => rfl, htop⟩ hc hmem ?_ hcut ?_)
    · rw [herase]
      intro x hx
      exact hnew x (by simp at hx ⊢; tauto)
    · rw [herase]
      exact SList.insert_before hcmp (by simp)
  | gt =>
    have hbn : op.cmp b node.row = .lt := SList.gt_iff_lt.mp hcmp
    have hZB : ∀ x ∈ SList.erase op.cmp old.row A ++ [b], ∀ y ∈ B, op.cmp x y = .lt := by
      intro x hx y hy
      rcases List.mem_append.mp hx with hx | hx
      · exact hc.across x (hsub x hx) y hy
      · rw [List.mem_singleton.mp hx]
        exact hc.past y hy
    have hZn : ∀ x ∈ SList.erase op.cmp old.row A ++ [b], op.cmp x node.row = .lt := by
      intro x hx
      rcases List.mem_append.mp hx with hx | hx
      · exact SList.lt_trans (hbeforeX x hx) hbn
      · rw [List.mem_singleton.mp hx]
        exact hbn
    have hlen : (SList.erase op.cmp old.row A ++ [b]).length = A.length := by
      rw [List.length_append, List.length_singleton]
      exact hlenX
    obtain ⟨y, B', hins, hcut, hby, hcases⟩ := edit_past_cases hc hmem herase hlen hZB hZn
      (fun x hx => hnew x (List.mem_append_right _ (List.mem_cons_of_mem _ hx))) hbn
    have hlist : SList.erase op.cmp old.row A ++ b :: y :: B' = SList.erase op.cmp old.row A ++ [b] ++ y :: B' := by simp
    rw [SList.insert_past hbn hbeforeX, hins, hlist] at hserve hP ⊢
    obtain ⟨nodes, hf, hrows⟩ := fetchN_eq hserve .after false 1
    have haround : SList.Around op.cmp bound (SList.erase op.cmp old.row A) [b] (y :: B') :=
      SList.around_of hb hbeforeX hby (by simp)
    rw [show (Basis.after == Basis.after) = true from rfl, haround.forwardAfter] at hrows
    obtain ⟨ny, rfl, hny⟩ := map_row_one (show _ = ([y] ++ B').take 1 from hrows)
    simp only [hf, Option.bind_some, List.head?_cons, hny]
    rcases hcases with ⟨hyn, hrep⟩ | ⟨hne, hrep⟩
    · rw [if_pos (by rw [hyn]; exact Std.ReflCmp.compare_self), ← hyn]
      exact .rebound hcut (by rw [hlen]) hkey (hP y (by simp)) (hrep (setState_touches hkey htop _ _))
    · rw [if_neg hne]
      exact .rebound hcut (by rw [hlen]) hkey (hP y (by simp)) (hrep hny rfl rfl (setState_touches hkey htop _ _))

end

theorem pushEdit_repairs (hkey : op.keyFromRow old.row ≠ maxBoundKey) (htop : TopSlot st)
    (hpart : op.partitionKey.all (partitionKeyUnchanged old.row node.row) = true) {size : Nat} {bound : Option Row}
    (hslot : st (op.keyFromRow old.row) = some (.take size bound)) (hw : SList.Window op.cmp op.limit l size bound)
    (hold : old.row ∈ l) (hnew : ∀ x ∈ SList.erase op.cmp old.row l, op.cmp x node.row ≠ .eq)
    (hPb : ∀ b, bound = some b → P b) (hP : ∀ r ∈ SList.insert op.cmp node.row (SList.erase op.cmp old.row l), P r)
    (hserve : ∀ b, bound = some b →
      Serves op up (op.constraintFor old.row) b (SList.insert op.cmp node.row (SList.erase op.cmp old.row l))) :
    Repairs op P st (op.keyFromRow old.row) l (SList.insert op.cmp node.row (SList.erase op.cmp old.row l)) (op.pushEdit up st node old) := by
  cases hw with
  | empty => cases hold
  | @cut A b B bound hc hb =>
    have hserve := hserve bound rfl
    have hPb := hPb bound rfl
    rcases List.mem_append.mp hold with holdA | holdB
    · exact pushEdit_before hkey htop hpart hslot hc hb hPb hP hserve hnew (SList.erase_before (hc.before _ holdA) hc.past).symm holdA
    · rcases List.mem_cons.mp holdB with hold | holdB
      · have herase : SList.erase op.cmp old.row (A ++ b :: B) = A ++ B := by
          rw [hold]
          exact SList.erase_at Std.ReflCmp.compare_self hc.before
        exact pushEdit_at hkey htop hpart hslot hc hb hPb hP hserve hnew herase.symm hold
      · exact pushEdit_past hkey htop hpart hslot hc hb hPb hP hserve hnew (SList.erase_past (hc.past _ holdB) hc.before).symm holdB

end

/-! ## Push -/

/-- A change that fits the rows of a partition. -/
def FitsRows (op : Take) (l : List Row) : SourceChange Row → Prop
  | .add r => ∀ x ∈ l, op.cmp x r ≠ .eq
  | .remove r => r ∈ l
  | .edit old row => old ∈ l ∧ (∀ x ∈ SList.erase op.cmp old l, op.cmp x row ≠ .eq) ∧
      op.partitionKey.all (partitionKeyUnchanged old row) = true

/-- The row whose partition a change is for; an edit's old one. -/
def changedRow : SourceChange Row → Row
  | .add r => r
  | .remove r => r
  | .edit old _ => old

/-- A change for a partition with a slot repairs its window. -/
theorem push_repairs {δ : SourceChange Row} (hn : 0 < op.limit) (hkey : op.keyFromRow (changedRow δ) ≠ maxBoundKey) (htop : TopSlot st)
    (hslot : SlotOk op P l (st (op.keyFromRow (changedRow δ)))) (hfit : FitsRows op l δ) (hP : ∀ r ∈ SList.patch op.cmp l δ, P r)
    (hserve : ∀ b x, P b → x ∈ l → op.cmp b x = .eq →
      Serves op up (op.constraintFor (changedRow δ)) b (SList.patch op.cmp l δ)) :
    ∃ r, op.push up st (.ofSource δ) = some r ∧ Repaired op st (op.keyFromRow (changedRow δ)) l (SList.patch op.cmp l δ) r ∧
      KeptOrDrained op P (SList.patch op.cmp l δ) (r.1 (op.keyFromRow (changedRow δ))) ∧
      ((∀ r', δ ≠ .remove r') → SlotOk op P (SList.patch op.cmp l δ) (r.1 (op.keyFromRow (changedRow δ)))) := by
  obtain ⟨size, bound, hst, hw, hPb⟩ := hslot
  obtain ⟨maxBound, hmax⟩ := getMaxBound_top htop
  have hserve' : ∀ b, bound = some b → Serves op up (op.constraintFor (changedRow δ)) b (SList.patch op.cmp l δ) := by
    intro b hb
    obtain ⟨x, hx, htie⟩ := hw.bound_eq.2 b hb
    exact hserve b x (hPb b hb) ((List.take_sublist _ _).subset (List.mem_of_getLast? hx)) htie
  cases δ with
  | add r =>
    have hst' : st (op.keyFromRow r) = some (.take size bound) := hst
    have hadd : ∃ q, op.pushAdd up st (.leaf r) (op.keyFromRow r) size bound maxBound (op.constraintFor r) = some q ∧
        Repaired op st (op.keyFromRow r) l (SList.insert op.cmp r l) q ∧
        SlotOk op P (SList.insert op.cmp r l) (q.1 (op.keyFromRow r)) := pushAdd_repairs hkey htop hn hst hw hfit hPb hP hserve'
    obtain ⟨q, hq, hrep, hok⟩ := hadd
    refine ⟨q, ?_, hrep, Or.inl hok, fun _ => hok⟩
    simp only [push, Change.ofSource, Change.primaryRow, Node.leaf_row, getState, hst', hmax, Option.bind_eq_bind, Option.bind_some]
    exact hq
  | remove r =>
    have hst' : st (op.keyFromRow r) = some (.take size bound) := hst
    have hremove : ∃ q, op.pushRemove up st (.leaf r) (op.keyFromRow r) size bound maxBound (op.constraintFor r) = some q ∧
        Repaired op st (op.keyFromRow r) l (SList.erase op.cmp r l) q ∧
        KeptOrDrained op P (SList.erase op.cmp r l) (q.1 (op.keyFromRow r)) := pushRemove_repairs hkey htop hst hw hfit hPb hP hserve'
    obtain ⟨q, hq, hrep, hok⟩ := hremove
    refine ⟨q, ?_, hrep, hok, fun h => absurd rfl (h r)⟩
    simp only [push, Change.ofSource, Change.primaryRow, Node.leaf_row, getState, hst', hmax, Option.bind_eq_bind, Option.bind_some]
    exact hq
  | edit old row =>
    obtain ⟨hold, hnew, hpart⟩ := hfit
    have hedit : ∃ q, op.pushEdit up st (.leaf row) (.leaf old) = some q ∧
        Repaired op st (op.keyFromRow old) l (SList.insert op.cmp row (SList.erase op.cmp old l)) q ∧
        SlotOk op P (SList.insert op.cmp row (SList.erase op.cmp old l)) (q.1 (op.keyFromRow old)) :=
      pushEdit_repairs hkey htop hpart hst hw hold hnew hPb hP hserve'
    obtain ⟨q, hq, hrep, hok⟩ := hedit
    exact ⟨q, hq, hrep, Or.inl hok, fun _ => hok⟩

/-- A change for a partition without a slot is dropped. -/
theorem push_dropped {δ : SourceChange Row} (hslot : st (op.keyFromRow (changedRow δ)) = none)
    (hpart : ∀ old row, δ = .edit old row → op.partitionKey.all (partitionKeyUnchanged old row) = true) :
    op.push up st (.ofSource δ) = some (st, []) := by
  cases δ with
  | add r =>
    have hslot : st (op.keyFromRow r) = none := hslot
    simp [push, Change.ofSource, Change.primaryRow, getState, hslot]
  | remove r =>
    have hslot : st (op.keyFromRow r) = none := hslot
    simp [push, Change.ofSource, Change.primaryRow, getState, hslot]
  | edit old row =>
    have hslot : st (op.keyFromRow old) = none := hslot
    simp [push, Change.ofSource, pushEdit, getState, hslot, hpart old row rfl]

end Take

end Rindle
