import Mathlib.Data.List.Forall2
import IronSbe.Lib.Slice

/-!
# Records and tables of fixed slots

A `Codec` stores a value in a fixed number of elements.  A `Slot` is a codec at
an offset, a record is a list of slots at a base, and a table is a run of
records at a fixed stride.  Writing any of them is a run of `Write`s.

* `read_assign`: after any sequence of assignments to the slots of a record,
  a slot reads as the last value assigned to it, and as before when there was
  none.
* `readAll_of_heldBy`, `readTable_of_heldBy`: a record or a table reads as
  what was stored, in any buffer that holds its writes; so do its first slots
  alone.
* `pairwise_writes`, `pairwise_tableWrites`: the writes are clear of each
  other when the slots are disjoint and a table's records lie in their stride.
* `readTable_isSome_iff`: reading needs no more than the slots it reads.
-/

namespace Lib.Record

open Lib.Slice List Option

variable {α β : Type}

/-- A way to store a value in `width` elements. -/
structure Codec (α β : Type) where
  width : Nat
  /-- The values that can be stored. -/
  Accepts : β → Prop
  encode : β → List α
  decode : List α → β
  length_encode : ∀ v, Accepts v → (encode v).length = width

/-- What a stored value reads as. -/
def Codec.stored (c : Codec α β) (v : β) : β := c.decode (c.encode v)

/-- A codec at an offset of a record. -/
structure Slot (α β : Type) where
  offset : Nat
  codec : Codec α β

/-! ## One slot -/

namespace Slot

variable {s t : Slot α β} {base : Nat} {buf : List α} {v u : β}

/-- The first offset after the slot. -/
def stop (s : Slot α β) : Nat := s.offset + s.codec.width

/-- The slots have no element in common. -/
def Disjoint (s t : Slot α β) : Prop := Apart (s.offset, s.stop) (t.offset, t.stop)

/-- The write that stores `v` in the slot of the record at `base`. -/
def write (s : Slot α β) (base : Nat) (v : β) : Write α := ⟨base + s.offset, s.codec.encode v⟩

/-- The value in the slot of the record at `base`. -/
def read (s : Slot α β) (buf : List α) (base : Nat) : Option β :=
  (slice buf (base + s.offset) (base + s.stop)).map s.codec.decode

@[simp] theorem start_write : (s.write base v).start = base + s.offset := rfl

theorem stop_write (hv : s.codec.Accepts v) : (s.write base v).stop = base + s.stop := by
  rw [Write.stop, write, s.codec.length_encode v hv, stop, Nat.add_assoc]

theorem clear_write (h : s.Disjoint t) (hv : s.codec.Accepts v) (hu : t.codec.Accepts u) :
    (s.write base v).Clear (t.write base u) := by
  rw [Write.Clear, stop_write hv, stop_write hu, start_write, start_write]
  simp only [Disjoint, Apart] at h ⊢
  omega

theorem read_isSome_iff : (s.read buf base).isSome = true ↔ base + s.stop ≤ buf.length := by
  rw [read, isSome_map, slice_isSome_iff, stop]
  omega

theorem read_drop {offset : Nat} (h : offset ≤ buf.length) :
    s.read (buf.drop offset) base = s.read buf (offset + base) := by
  rw [read, slice_drop h, read, Nat.add_assoc, Nat.add_assoc]

theorem read_take {n : Nat} (h : base + s.stop ≤ n) :
    s.read (buf.take n) base = s.read buf base := by
  rw [read, slice_of_take h, read]

/-- A slot reads as what was stored in it. -/
theorem read_of_heldBy (hv : s.codec.Accepts v) (h : (s.write base v).HeldBy buf) :
    s.read buf base = some (s.codec.stored v) := by
  rw [Write.HeldBy, stop_write hv] at h
  rw [read, Codec.stored, show slice buf (base + s.offset) (base + s.stop) = _ from h]
  rfl

/-- A write clear of the slot does not change what it reads as. -/
theorem read_overwrite {w : Write α} (hw : w.stop ≤ buf.length)
    (h : Apart (w.start, w.stop) (base + s.offset, base + s.stop)) :
    s.read (overwrite buf w.start w.data) base = s.read buf base := by
  rw [read, slice_overwrite_frame hw h, read]

end Slot

/-! ## Assignments to a record -/

/-- The writes of a list of assignments, each a slot number and a value. -/
def assign (slots : List (Slot α β)) (base : Nat) (calls : List (Nat × β)) : List (Write α) :=
  calls.filterMap fun c => slots[c.1]?.map fun s => s.write base c.2

/-- The last value that a list of assignments gives to slot `i`. -/
def lastAssigned : List (Nat × β) → Nat → Option β
  | [], _ => none
  | c :: rest, i => (lastAssigned rest i).or (if c.1 = i then some c.2 else none)

variable {calls : List (Nat × β)} {i k base count offset : Nat} {extra slots : List (Slot α β)}
  {w : Write α} {s : Slot α β} {buf : List α} {values : List β}

theorem mem_of_lastAssigned {v : β} (h : lastAssigned calls i = some v) : (i, v) ∈ calls := by
  induction calls with
  | nil => simp [lastAssigned] at h
  | cons c rest ih =>
    rw [lastAssigned, or_eq_some_iff] at h
    rcases h with h | ⟨-, h⟩
    · exact mem_cons_of_mem c (ih h)
    · split_ifs at h with hci
      cases h
      subst hci
      exact mem_cons_self

/-- Every assignment is to a slot of the record and of a value it accepts. -/
def ValidCalls (slots : List (Slot α β)) (calls : List (Nat × β)) : Prop :=
  ∀ c ∈ calls, ∃ s, slots[c.1]? = some s ∧ s.codec.Accepts c.2

theorem mem_assign (hcalls : ValidCalls slots calls) (hw : w ∈ assign slots base calls) :
    ∃ s ∈ slots, ∃ v, s.codec.Accepts v ∧ w = s.write base v := by
  obtain ⟨c, hc, hw⟩ := mem_filterMap.mp hw
  obtain ⟨s, hs, hv⟩ := hcalls c hc
  rw [hs, map_some, some.injEq] at hw
  exact ⟨s, mem_of_getElem? hs, c.2, hv, hw.symm⟩

/-- Assignments stay inside the record. -/
theorem assign_within {size : Nat} (hin : ∀ s ∈ slots, s.stop ≤ size)
    (hcalls : ValidCalls slots calls) (hw : w ∈ assign slots base calls) :
    base ≤ w.start ∧ w.stop ≤ base + size := by
  obtain ⟨s, hs, v, hv, rfl⟩ := mem_assign hcalls hw
  have hstop := hin s hs
  rw [Slot.stop_write hv, Slot.start_write]
  omega

/-- Two slots of a record of disjoint slots, by their numbers. -/
theorem disjoint_of_ne (h : slots.Pairwise Slot.Disjoint) {j : Nat} {t : Slot α β}
    (hs : slots[i]? = some s) (ht : slots[j]? = some t) (hne : i ≠ j) :
    s.Disjoint t := by
  rw [pairwise_iff_getElem] at h
  obtain ⟨hi, rfl⟩ := List.getElem?_eq_some_iff.mp hs
  obtain ⟨hj, rfl⟩ := List.getElem?_eq_some_iff.mp ht
  rcases Nat.lt_or_gt_of_ne hne with hlt | hgt
  · exact h i j hi hj hlt
  · exact (h j i hj hi hgt).symm

/-- After a sequence of assignments a slot reads as the last value assigned to
it, and as before when there was none. -/
theorem read_assign (hdisj : slots.Pairwise Slot.Disjoint) (hcalls : ValidCalls slots calls)
    {buf' : List α} (h : applyAll (assign slots base calls) buf = some buf')
    (hs : slots[i]? = some s) :
    s.read buf' base =
      match lastAssigned calls i with
      | some v => some (s.codec.stored v)
      | none => s.read buf base := by
  induction calls generalizing buf with
  | nil => rw [← some.inj h]; rfl
  | cons c rest ih =>
    obtain ⟨t, ht, hv⟩ := hcalls c mem_cons_self
    rw [assign, filterMap_cons, ht, map_some] at h
    obtain ⟨hfit, hrest⟩ := applyAll_cons_inv h
    have hread := ih (fun d hd => hcalls d (mem_cons_of_mem c hd)) hrest
    rw [lastAssigned]
    cases hlast : lastAssigned rest i with
    | some v =>
      rw [hread, hlast]
      rfl
    | none =>
      rw [hread, hlast, none_or]
      by_cases hci : c.1 = i
      · obtain rfl : s = t := some.inj (by rw [← hs, ← ht, hci])
        rw [if_pos hci]
        exact Slot.read_of_heldBy hv (slice_overwrite_same hfit)
      · rw [if_neg hci]
        refine Slot.read_overwrite hfit ?_
        have hsep := disjoint_of_ne hdisj ht hs hci
        rw [Slot.stop_write hv, Slot.start_write]
        simp only [Slot.Disjoint, Apart] at hsep ⊢
        omega

/-! ## Whole records -/

/-- A value for every slot. -/
def AcceptsAll (slots : List (Slot α β)) (values : List β) : Prop :=
  List.Forall₂ (fun s v => s.codec.Accepts v) slots values

/-- The writes that store a record. -/
def writes (slots : List (Slot α β)) (base : Nat) (values : List β) : List (Write α) :=
  List.zipWith (fun s v => s.write base v) slots values

/-- What a stored record reads as. -/
def storedAll (slots : List (Slot α β)) (values : List β) : List β :=
  List.zipWith (fun s v => s.codec.stored v) slots values

/-- Read every slot of the record at `base`. -/
def readAll (slots : List (Slot α β)) (buf : List α) (base : Nat) : Option (List β) :=
  slots.mapM fun s => s.read buf base

theorem mem_writes (h : AcceptsAll slots values) (hw : w ∈ writes slots base values) :
    ∃ s ∈ slots, ∃ v, s.codec.Accepts v ∧ w = s.write base v := by
  induction h with
  | nil => exact absurd hw not_mem_nil
  | @cons s v slots values hv _ ih =>
    rw [writes, zipWith_cons_cons] at hw
    rcases mem_cons.mp hw with rfl | hw
    · exact ⟨s, mem_cons_self, v, hv, rfl⟩
    · obtain ⟨t, ht, u, hu, rfl⟩ := ih hw
      exact ⟨t, mem_cons_of_mem s ht, u, hu, rfl⟩

/-- Every slot of a record is written. -/
theorem exists_mem_writes (base : Nat) (h : AcceptsAll slots values) (hs : s ∈ slots) :
    ∃ v, s.codec.Accepts v ∧ s.write base v ∈ writes slots base values := by
  induction h with
  | nil => exact absurd hs not_mem_nil
  | @cons t u slots values hu _ ih =>
    rw [writes, zipWith_cons_cons]
    rcases mem_cons.mp hs with rfl | hs
    · exact ⟨u, hu, mem_cons_self⟩
    · obtain ⟨v, hv, hmem⟩ := ih hs
      exact ⟨v, hv, mem_cons_of_mem _ hmem⟩

theorem pairwise_writes (hdisj : slots.Pairwise Slot.Disjoint) (h : AcceptsAll slots values) :
    (writes slots base values).Pairwise Write.Clear := by
  induction h with
  | nil => exact List.Pairwise.nil
  | @cons s v slots values hv hrest ih =>
    rw [pairwise_cons] at hdisj
    rw [writes, zipWith_cons_cons, pairwise_cons]
    refine ⟨fun w hw => ?_, ih hdisj.2⟩
    obtain ⟨t, ht, u, hu, rfl⟩ := mem_writes hrest hw
    exact Slot.clear_write (hdisj.1 t ht) hv hu

/-- The first slots of a record read as what was stored in them. -/
theorem readAll_of_heldBy (h : AcceptsAll (slots ++ extra) values)
    (hbuf : ∀ w ∈ writes (slots ++ extra) base values, w.HeldBy buf) :
    readAll slots buf base = some (storedAll slots values) := by
  induction slots generalizing values with
  | nil => rfl
  | cons s slots ih =>
    obtain ⟨v, values, hv, hvalues, rfl⟩ := forall₂_cons_left_iff.mp h
    rw [cons_append, writes, zipWith_cons_cons, forall_mem_cons] at hbuf
    have hrest : readAll slots buf base = some (storedAll slots values) := ih hvalues hbuf.2
    rw [readAll] at hrest
    rw [readAll, mapM_cons, Slot.read_of_heldBy hv hbuf.1, hrest]
    rfl

theorem readAll_drop (h : offset ≤ buf.length) (base : Nat) :
    readAll slots (buf.drop offset) base = readAll slots buf (offset + base) := by
  rw [readAll, readAll]
  simp only [Slot.read_drop h]

theorem readAll_take {n : Nat} (h : ∀ s ∈ slots, base + s.stop ≤ n) :
    readAll slots (buf.take n) base = readAll slots buf base := by
  induction slots with
  | nil => rfl
  | cons s slots ih =>
    rw [forall_mem_cons] at h
    have hrest := ih h.2
    rw [readAll, readAll] at hrest
    rw [readAll, readAll, mapM_cons, mapM_cons, Slot.read_take h.1, hrest]

/-- One slot of a record that was read. -/
theorem read_of_readAll {slots : List (Slot α β)} {buf : List α} {base : Nat} {values : List β}
    (h : readAll slots buf base = some values) {j : Nat} {s : Slot α β} (hs : slots[j]? = some s) :
    s.read buf base = values[j]? := by
  induction slots generalizing values j with
  | nil => simp at hs
  | cons t slots ih =>
    rw [readAll, mapM_cons] at h
    obtain ⟨v, hv, h⟩ := bind_eq_some_iff.mp h
    obtain ⟨rest, hrest, h⟩ := bind_eq_some_iff.mp h
    cases h
    cases j with
    | zero =>
      cases hs
      exact hv
    | succ j => exact ih hrest hs

theorem readAll_isSome_iff :
    (readAll slots buf base).isSome = true ↔ ∀ s ∈ slots, base + s.stop ≤ buf.length := by
  induction slots with
  | nil => simp [readAll]
  | cons s slots ih =>
    rw [forall_mem_cons, ← ih, ← Slot.read_isSome_iff, readAll, readAll, mapM_cons]
    cases s.read buf base with
    | none => simp
    | some v => cases slots.mapM (fun s => s.read buf base) <;> simp

/-! ## Tables -/

/-- The writes that store one record after the other, `stride` apart. -/
def tableWrites (slots : List (Slot α β)) (stride : Nat) : Nat → List (List β) → List (Write α)
  | _, [] => []
  | base, values :: rest =>
    writes slots base values ++ tableWrites slots stride (base + stride) rest

/-- Read `count` records, `stride` apart. -/
def readTable (slots : List (Slot α β)) (stride : Nat) (buf : List α) :
    Nat → Nat → Option (List (List β))
  | _, 0 => some []
  | base, count + 1 => do
    let values ← readAll slots buf base
    let rest ← readTable slots stride buf (base + stride) count
    return values :: rest

variable {slots : List (Slot α β)} {stride base : Nat} {table : List (List β)}

theorem mem_tableWrites (h : ∀ values ∈ table, AcceptsAll slots values)
    (hw : w ∈ tableWrites slots stride base table) :
    ∃ k < table.length, ∃ s ∈ slots, ∃ v, s.codec.Accepts v ∧
      w = s.write (base + k * stride) v := by
  induction table generalizing base with
  | nil => exact absurd hw not_mem_nil
  | cons values rest ih =>
    rw [forall_mem_cons] at h
    rcases mem_append.mp hw with hw | hw
    · obtain ⟨s, hs, v, hv, rfl⟩ := mem_writes h.1 hw
      exact ⟨0, Nat.succ_pos _, s, hs, v, hv, by rw [Nat.zero_mul, Nat.add_zero]⟩
    · obtain ⟨k, hk, s, hs, v, hv, rfl⟩ := ih h.2 hw
      refine ⟨k + 1, Nat.succ_lt_succ hk, s, hs, v, hv, ?_⟩
      rw [Nat.succ_mul, Nat.add_assoc, Nat.add_comm stride]

/-- Every slot of every record of a table is written. -/
theorem exists_mem_tableWrites (stride base : Nat) (h : ∀ values ∈ table, AcceptsAll slots values)
    (hk : k < table.length) (hs : s ∈ slots) :
    ∃ v, s.codec.Accepts v ∧ s.write (base + k * stride) v ∈
      tableWrites slots stride base table := by
  induction table generalizing base k with
  | nil => exact absurd hk (Nat.not_lt_zero k)
  | cons values rest ih =>
    rw [forall_mem_cons] at h
    cases k with
    | zero =>
      obtain ⟨v, hv, hmem⟩ := exists_mem_writes base h.1 hs
      refine ⟨v, hv, mem_append_left _ ?_⟩
      rw [Nat.zero_mul, Nat.add_zero]
      exact hmem
    | succ k =>
      obtain ⟨v, hv, hmem⟩ := ih (base + stride) h.2 (Nat.lt_of_succ_lt_succ hk)
      refine ⟨v, hv, mem_append_right _ ?_⟩
      rw [Nat.succ_mul, Nat.add_comm (k * stride), ← Nat.add_assoc]
      exact hmem

/-- A table stays inside its `table.length * stride` elements. -/
theorem tableWrites_within (hin : ∀ s ∈ slots, s.stop ≤ stride)
    (h : ∀ values ∈ table, AcceptsAll slots values) (hw : w ∈ tableWrites slots stride base table) :
    base ≤ w.start ∧ w.stop ≤ base + table.length * stride := by
  obtain ⟨k, hk, s, hs, v, hv, rfl⟩ := mem_tableWrites h hw
  have hle : (k + 1) * stride ≤ table.length * stride := Nat.mul_le_mul_right stride hk
  have hstop := hin s hs
  rw [Nat.succ_mul] at hle
  rw [Slot.stop_write hv, Slot.start_write]
  omega

theorem pairwise_tableWrites (hdisj : slots.Pairwise Slot.Disjoint)
    (hin : ∀ s ∈ slots, s.stop ≤ stride) (h : ∀ values ∈ table, AcceptsAll slots values) :
    (tableWrites slots stride base table).Pairwise Write.Clear := by
  induction table generalizing base with
  | nil => exact List.Pairwise.nil
  | cons values rest ih =>
    rw [forall_mem_cons] at h
    refine pairwise_append.mpr ⟨pairwise_writes hdisj h.1, ih h.2, fun w hw v hv => ?_⟩
    obtain ⟨s, hs, u, hu, rfl⟩ := mem_writes h.1 hw
    have hstop := hin s hs
    refine apart_of_le (Nat.le_trans ?_ (tableWrites_within hin h.2 hv).1)
    rw [Slot.stop_write hu]
    omega

/-- The first slots of every record of a table read as what was stored. -/
theorem readTable_of_heldBy (h : ∀ values ∈ table, AcceptsAll (slots ++ extra) values)
    (hbuf : ∀ w ∈ tableWrites (slots ++ extra) stride base table, w.HeldBy buf) :
    readTable slots stride buf base table.length = some (table.map (storedAll slots)) := by
  induction table generalizing base with
  | nil => rfl
  | cons values rest ih =>
    rw [forall_mem_cons] at h
    have hfirst := readAll_of_heldBy h.1 fun w hw => hbuf w (mem_append_left _ hw)
    have hrest := ih h.2 fun w hw => hbuf w (mem_append_right _ hw)
    rw [length_cons, readTable, hfirst, hrest]
    rfl

theorem readTable_drop (h : offset ≤ buf.length) (count : Nat) :
    readTable slots stride (buf.drop offset) base count =
      readTable slots stride buf (offset + base) count := by
  induction count generalizing base with
  | zero => rfl
  | succ count ih => rw [readTable, readTable, readAll_drop h, ih, Nat.add_assoc]

theorem length_of_readTable (h : readTable slots stride buf base count = some table) :
    table.length = count := by
  induction count generalizing base table with
  | zero =>
    cases h
    rfl
  | succ count ih =>
    rw [readTable] at h
    obtain ⟨values, -, h⟩ := bind_eq_some_iff.mp h
    obtain ⟨rest, hrest, h⟩ := bind_eq_some_iff.mp h
    cases h
    rw [length_cons, ih hrest]

/-- One record of a table that was read. -/
theorem readAll_of_readTable (h : readTable slots stride buf base count = some table)
    (hk : k < count) :
    readAll slots buf (base + k * stride) = table[k]? := by
  induction count generalizing base table k with
  | zero => omega
  | succ count ih =>
    rw [readTable] at h
    obtain ⟨values, hvalues, h⟩ := bind_eq_some_iff.mp h
    obtain ⟨rest, hrest, h⟩ := bind_eq_some_iff.mp h
    cases h
    cases k with
    | zero => simpa using hvalues
    | succ k =>
      have hnext := ih hrest (show k < count by omega)
      rw [Nat.succ_mul, Nat.add_comm (k * stride), ← Nat.add_assoc, hnext]
      rfl

theorem readTable_isSome_iff :
    (readTable slots stride buf base count).isSome = true ↔
      ∀ k < count, ∀ s ∈ slots, base + k * stride + s.stop ≤ buf.length := by
  induction count generalizing base with
  | zero => simp [readTable]
  | succ count ih =>
    have hsplit : (readTable slots stride buf base (count + 1)).isSome = true ↔
        (readAll slots buf base).isSome = true ∧
          (readTable slots stride buf (base + stride) count).isSome = true := by
      rw [readTable]
      cases readAll slots buf base with
      | none => simp
      | some v => cases readTable slots stride buf (base + stride) count <;> simp
    have hbase : ∀ k, base + stride + k * stride = base + (k + 1) * stride := by
      intro k
      rw [Nat.succ_mul]
      omega
    simp only [hsplit, readAll_isSome_iff, ih, hbase]
    constructor
    · rintro ⟨hfirst, hrest⟩ k hk s hs
      cases k with
      | zero => simpa using hfirst s hs
      | succ k => exact hrest k (by omega) s hs
    · intro h
      refine ⟨fun s hs => ?_, fun k hk => h (k + 1) (by omega)⟩
      simpa using h 0 (by omega) s hs

end Lib.Record
