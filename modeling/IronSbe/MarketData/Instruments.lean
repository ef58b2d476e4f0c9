import Mathlib.Logic.Function.Basic
import IronSbe.Lib.Transition

/-!
# The instrument manager

`InstrumentManager` keeps two maps: the instruments by their id, and for each symbol the id
that was added last under it.  `add` writes one entry of each and does not look at what was
there; `remove` deletes the entry of the symbol whoever owns it.

* `Linked`: every entry of the index leads to an instrument with that symbol.
* `consistent_add_iff`, `consistent_remove_iff`: which calls keep the two maps in step.
* `alwaysConsistent_iff`: a history keeps them in step exactly if each of its calls does.
-/

namespace IronSbe.MarketData

open Lib.Transition Option Function

/-- The types of securities. -/
inductive SecurityType where
  | equity
  | future
  | option
  | forex
  | index
  | other
  deriving Repr, DecidableEq

/-- The definition of an instrument. -/
structure Instrument where
  id : UInt64
  symbol : String
  securityType : SecurityType
  tickSize : Int64
  multiplier : Int64
  currency : String
  exchange : String
  isActive : Bool
  deriving Repr, DecidableEq

/-- The instruments by id, and the ids by symbol. -/
structure InstrumentManager where
  instruments : UInt64 → Option Instrument
  symbolIndex : String → Option UInt64

namespace InstrumentManager

/-- No instruments. -/
def new : InstrumentManager := ⟨fun _ => none, fun _ => none⟩

/-- `add`: both maps get the new entry, and an old symbol of the id stays. -/
def add (m : InstrumentManager) (instrument : Instrument) : InstrumentManager where
  symbolIndex := Function.update m.symbolIndex instrument.symbol (some instrument.id)
  instruments := Function.update m.instruments instrument.id (some instrument)

/-- `get`. -/
def get (m : InstrumentManager) (id : UInt64) : Option Instrument := m.instruments id

/-- `get_by_symbol`. -/
def getBySymbol (m : InstrumentManager) (symbol : String) : Option Instrument :=
  (m.symbolIndex symbol).bind m.instruments

/-- `remove`, with the symbol of the instrument. -/
def remove (m : InstrumentManager) (id : UInt64) : Option Instrument × InstrumentManager :=
  match m.instruments id with
  | some inst =>
    (some inst,
      { symbolIndex := Function.update m.symbolIndex inst.symbol none
        instruments := Function.update m.instruments id none })
  | none => (none, m)

/-- A call that changes the manager. -/
inductive Call where
  | add (instrument : Instrument)
  | remove (id : UInt64)

/-- The manager after a call. -/
def after (m : InstrumentManager) : Call → InstrumentManager
  | .add instrument => m.add instrument
  | .remove id => (m.remove id).2

/-- A symbol finds an instrument with that symbol, and it finds one if there is one. -/
structure Consistent (m : InstrumentManager) : Prop where
  found : ∀ symbol inst, m.getBySymbol symbol = some inst → inst.symbol = symbol
  listed : ∀ id inst, m.get id = some inst → (m.getBySymbol inst.symbol).isSome = true

/-- The manager is consistent after each call of the history. -/
def AlwaysConsistent (calls : List Call) : Prop :=
  ∀ before rest, calls = before ++ rest → (before.foldl after new).Consistent

/-- The call keeps the two maps in step.  An instrument that is replaced has kept its symbol, or
its old symbol has come to another id in the meantime; and no other instrument has the symbol of
one that is removed. -/
def Keeps (m : InstrumentManager) : Call → Prop
  | .add instrument => ∀ old, m.get instrument.id = some old → old.symbol ≠ instrument.symbol →
      m.symbolIndex old.symbol ≠ some instrument.id
  | .remove id => ∀ inst, m.get id = some inst →
      ∀ id' inst', id' ≠ id → m.get id' = some inst' → inst'.symbol ≠ inst.symbol

/-- Every entry of the index leads to an instrument with its symbol. -/
def Linked (m : InstrumentManager) : Prop :=
  ∀ symbol id, m.symbolIndex symbol = some id →
    ∃ inst, m.instruments id = some inst ∧ inst.symbol = symbol

variable {m : InstrumentManager} {symbol : String} {id : UInt64} {inst : Instrument}

theorem getBySymbol_eq_some_iff :
    m.getBySymbol symbol = some inst ↔
      ∃ id, m.symbolIndex symbol = some id ∧ m.instruments id = some inst :=
  bind_eq_some_iff

theorem remove_of_none (h : m.instruments id = none) : (m.remove id).2 = m := by
  rw [remove, h]

theorem remove_of_some (h : m.instruments id = some inst) :
    (m.remove id).2 =
      { symbolIndex := Function.update m.symbolIndex inst.symbol none
        instruments := Function.update m.instruments id none } := by
  rw [remove, h]

/-! ## One call -/

/-- The entry of a symbol that a new instrument does not have. -/
theorem symbolIndex_add_of_ne (hne : symbol ≠ inst.symbol) :
    (m.add inst).symbolIndex symbol = m.symbolIndex symbol :=
  update_of_ne hne _ _

theorem instruments_add_of_ne (hne : id ≠ inst.id) :
    (m.add inst).instruments id = m.instruments id :=
  update_of_ne hne _ _

theorem symbolIndex_add_self : (m.add inst).symbolIndex inst.symbol = some inst.id :=
  update_self _ _ _

theorem instruments_add_self : (m.add inst).instruments inst.id = some inst :=
  update_self _ _ _

theorem linked_add (hlinked : m.Linked) (hkeeps : m.Keeps (.add inst)) : (m.add inst).Linked := by
  intro symbol id hindex
  by_cases hsymbol : symbol = inst.symbol
  · subst hsymbol
    cases symbolIndex_add_self.symm.trans hindex
    exact ⟨inst, instruments_add_self, rfl⟩
  · rw [symbolIndex_add_of_ne hsymbol] at hindex
    obtain ⟨old, hold, rfl⟩ := hlinked symbol id hindex
    -- An entry that points to the new instrument's id is one that it leaves behind.
    have hid : id ≠ inst.id := by
      rintro rfl
      exact hkeeps old hold hsymbol hindex
    exact ⟨old, (instruments_add_of_ne hid).trans hold, rfl⟩

/-- Whatever is stored is still found after an instrument is added, by its own symbol. -/
theorem listed_add (hm : m.Consistent) (id : UInt64) (other : Instrument)
    (hget : (m.add inst).get id = some other) :
    ((m.add inst).getBySymbol other.symbol).isSome = true := by
  rw [isSome_iff_exists]
  by_cases hsymbol : other.symbol = inst.symbol
  · refine ⟨inst, getBySymbol_eq_some_iff.mpr ⟨inst.id, ?_, instruments_add_self⟩⟩
    rw [hsymbol]
    exact symbolIndex_add_self
  · have hid : id ≠ inst.id := by
      rintro rfl
      exact hsymbol (congrArg Instrument.symbol
        (some.inj (instruments_add_self.symm.trans hget)).symm)
    have hold := hm.listed id other ((instruments_add_of_ne hid).symm.trans hget)
    obtain ⟨found, hfound⟩ := isSome_iff_exists.mp hold
    obtain ⟨id', hindex, hstored⟩ := getBySymbol_eq_some_iff.mp hfound
    by_cases hid' : id' = inst.id
    · refine ⟨inst, getBySymbol_eq_some_iff.mpr ⟨inst.id, ?_, instruments_add_self⟩⟩
      rw [symbolIndex_add_of_ne hsymbol, hindex, hid']
    · refine ⟨found, getBySymbol_eq_some_iff.mpr ⟨id', ?_, ?_⟩⟩
      · rw [symbolIndex_add_of_ne hsymbol, hindex]
      · rw [instruments_add_of_ne hid', hstored]

theorem consistent_of_linked (hlinked : m.Linked)
    (hlisted : ∀ id inst, m.get id = some inst → (m.getBySymbol inst.symbol).isSome = true) :
    m.Consistent where
  found := by
    intro symbol inst hfound
    obtain ⟨id, hindex, hstored⟩ := getBySymbol_eq_some_iff.mp hfound
    obtain ⟨inst', hstored', hsymbol⟩ := hlinked symbol id hindex
    rw [some.inj (hstored.symm.trans hstored')]
    exact hsymbol
  listed := hlisted

theorem consistent_add_iff (hm : m.Consistent) (hlinked : m.Linked) :
    (m.add inst).Consistent ↔ m.Keeps (.add inst) := by
  constructor
  · intro h old hold hsymbol hindex
    have hfound : (m.add inst).getBySymbol old.symbol = some inst := by
      refine getBySymbol_eq_some_iff.mpr ⟨inst.id, ?_, instruments_add_self⟩
      rw [symbolIndex_add_of_ne hsymbol, hindex]
    exact hsymbol (h.found old.symbol inst hfound).symm
  · intro hkeeps
    exact consistent_of_linked (linked_add hlinked hkeeps) (listed_add hm)

theorem linked_remove (hlinked : m.Linked) : (m.remove id).2.Linked := by
  cases hstored : m.instruments id with
  | none =>
    rw [remove_of_none hstored]
    exact hlinked
  | some inst =>
    rw [remove_of_some hstored]
    intro symbol id' hindex
    have hsymbol : symbol ≠ inst.symbol := by
      rintro rfl
      simp only [update_self] at hindex
      cases hindex
    simp only [update_of_ne hsymbol] at hindex
    obtain ⟨other, hother, rfl⟩ := hlinked symbol id' hindex
    have hid : id' ≠ id := by
      rintro rfl
      exact hsymbol (congrArg Instrument.symbol (some.inj (hother.symm.trans hstored)))
    exact ⟨other, (update_of_ne hid _ _).trans hother, rfl⟩

theorem consistent_remove_iff (hm : m.Consistent) (hlinked : m.Linked) :
    (m.remove id).2.Consistent ↔ m.Keeps (.remove id) := by
  cases hstored : m.instruments id with
  | none =>
    rw [remove_of_none hstored]
    refine iff_of_true hm fun inst hget => ?_
    cases hstored.symm.trans hget
  | some inst =>
    have hremoved := remove_of_some hstored
    constructor
    · intro h removed hget id' other hid hother hsymbol
      cases hstored.symm.trans hget
      -- The symbol of the other instrument is the one that has been deleted.
      have hkept : (m.remove id).2.get id' = some other := by
        rw [hremoved]
        exact (update_of_ne hid _ _).trans hother
      have hlost : (m.remove id).2.getBySymbol other.symbol = none := by
        rw [hremoved, hsymbol]
        simp only [getBySymbol, update_self, bind_none]
      have hlisted := h.listed id' other hkept
      rw [hlost] at hlisted
      cases hlisted
    · intro hkeeps
      refine consistent_of_linked (linked_remove hlinked) fun id' other hother => ?_
      rw [hremoved] at hother ⊢
      have hid : id' ≠ id := by
        rintro rfl
        simp only [get, update_self] at hother
        cases hother
      simp only [get, update_of_ne hid] at hother
      have hsymbol := hkeeps inst hstored id' other hid hother
      obtain ⟨found, hfound⟩ := isSome_iff_exists.mp (hm.listed id' other hother)
      obtain ⟨id'', hindex, hstored'⟩ := getBySymbol_eq_some_iff.mp hfound
      have hid'' : id'' ≠ id := by
        rintro rfl
        have hsame := some.inj (hstored'.symm.trans hstored)
        rw [← hsame] at hsymbol
        exact hsymbol (hm.found _ _ hfound).symm
      simp only [getBySymbol, update_of_ne hsymbol, hindex, bind_some,
        update_of_ne hid'', hstored', isSome_some]

/-! ## Histories -/

theorem consistent_new : new.Consistent where
  found := by
    intro symbol inst hfound
    cases hfound
  listed := by
    intro id inst hget
    cases hget

theorem linked_new : new.Linked := by
  intro symbol id hindex
  cases hindex

theorem consistent_after_iff (hm : m.Consistent) (hlinked : m.Linked) (call : Call) :
    (m.after call).Consistent ↔ m.Keeps call := by
  cases call with
  | add inst => exact consistent_add_iff hm hlinked
  | remove id => exact consistent_remove_iff hm hlinked

theorem linked_after (hlinked : m.Linked) {call : Call} (hkeeps : m.Keeps call) :
    (m.after call).Linked := by
  cases call with
  | add inst => exact linked_add hlinked hkeeps
  | remove id => exact linked_remove hlinked

/-- The two maps are in step after every call of a history exactly if every call finds them in a
state that it keeps. -/
theorem alwaysConsistent_iff (calls : List Call) :
    AlwaysConsistent calls ↔
      ∀ before call rest, calls = before ++ call :: rest →
        (before.foldl after new).Keeps call :=
  always_foldl_iff consistent_new linked_new
    (fun _ call hm hlinked hm' =>
      linked_after hlinked ((consistent_after_iff hm hlinked call).mp hm'))
    (fun _ call hm hlinked => consistent_after_iff hm hlinked call)

/-- An equity that is traded in dollars. -/
def share (id : UInt64) (symbol : String) : Instrument :=
  ⟨id, symbol, .equity, 1, 1, "USD", "XNAS", true⟩

/-- An instrument is added again under a new symbol, and its old symbol finds it; and of two
instruments with one symbol the first is removed, and the second is not found. -/
theorem not_alwaysConsistent :
    ¬ AlwaysConsistent [.add (share 1 "AAPL"), .add (share 1 "MSFT")] ∧
      ¬ AlwaysConsistent [.add (share 1 "AAPL"), .add (share 2 "AAPL"), .remove 1] := by
  constructor
  · intro h
    have hfound := (h _ [] (List.append_nil _).symm).found "AAPL" (share 1 "MSFT") (by decide)
    exact absurd hfound (by decide)
  · intro h
    have hlisted := (h _ [] (List.append_nil _).symm).listed 2 (share 2 "AAPL") (by decide)
    exact absurd hlisted (by decide)

end InstrumentManager

end IronSbe.MarketData
