import Penglai.Miracl.Instance

namespace Penglai.Miracl

/-! # Working numbers as registers

A routine calculates in some of the instance's numbers, and leaves the others alone.
What it has stored where is kept track of by a map from the slots to the values, which
are natural numbers or residues, in whatever way they are stored. A slot without a
value may hold anything. -/

/-- The values of the slots after some steps from `mip`, of which only `scratch` is changed. -/
structure Registers {α : Type} (stored : α → Big) (scratch : Slot → Prop) (mip mip' : Mip)
    (registers : Slot → Option α) : Prop where
  rest : mip' = { mip with bigs := mip'.bigs }
  clean : mip'.Clean
  holds : ∀ {slot : Slot} {value : α}, registers slot = some value → mip'.bigs slot = stored value
  kept : ∀ slot, ¬scratch slot → mip'.bigs slot = mip.bigs slot

namespace Registers

variable {α : Type} {stored : α → Big} {scratch : Slot → Prop} {mip mip' mip'' : Mip}
  {registers : Slot → Option α}

theorem start (clean : mip.Clean)
    (holds : ∀ {slot : Slot} {value : α}, registers slot = some value →
      mip.bigs slot = stored value) :
    Registers stored scratch mip mip registers :=
  ⟨rfl, clean, holds, fun _ _ => rfl⟩

variable (before : Registers stored scratch mip mip' registers)

include before

theorem ready (ready : mip.ernum = none) : mip'.ernum = none := by
  rw [before.rest]
  exact ready

theorem check : mip'.check = mip.check := by rw [before.rest]

theorem nib : mip'.nib = mip.nib := by rw [before.rest]

theorem weaken {fewer : Slot → Option α}
    (known : ∀ {slot value}, fewer slot = some value → registers slot = some value) :
    Registers stored scratch mip mip' fewer :=
  ⟨before.rest, before.clean, fun holds => before.holds (known holds), before.kept⟩

theorem forget {slot : Slot} (inside : scratch slot) {big : Big} (clean : big.Clean) :
    Registers stored scratch mip (mip'.set slot big) (Function.update registers slot none) where
  rest := by
    rw [before.rest]
    rfl
  clean := before.clean.set clean
  holds := by
    intro other value holds
    rw [Function.update_apply] at holds
    split at holds
    · cases holds
    · rename_i apart
      rw [Mip.bigs_set_of_ne _ _ apart]
      exact before.holds holds
  kept := by
    intro other outside
    have apart : other ≠ slot := by
      rintro rfl
      exact outside inside
    rw [Mip.bigs_set_of_ne _ _ apart]
    exact before.kept other outside

theorem set {slot : Slot} (inside : scratch slot) {value : α} (normal : (stored value).Normal) :
    Registers stored scratch mip (mip'.set slot (stored value))
      (Function.update registers slot (some value)) where
  rest := (before.forget inside normal.clean).rest
  clean := (before.forget inside normal.clean).clean
  holds := by
    intro other number holds
    rw [Function.update_apply] at holds
    split at holds
    · rename_i same
      rw [same, Mip.bigs_set_self, Option.some_inj.mp holds]
    · rename_i apart
      rw [Mip.bigs_set_of_ne _ _ apart]
      exact before.holds holds
  kept := (before.forget inside normal.clean).kept

theorem yields {work slot : Slot} {result : Int} {value : α}
    (after : Mip.Yields mip' mip'' (· = work) slot result) (workInside : scratch work)
    (inside : scratch slot) (same : Big.ofInt result = stored value) :
    Registers stored scratch mip mip''
      (Function.update (Function.update registers work none) slot (some value)) where
  rest := by rw [after.rest, before.rest]
  clean := after.clean
  holds := by
    intro other number holds
    rw [Function.update_apply] at holds
    split at holds
    · rename_i equal
      rw [equal, after.result, same, Option.some_inj.mp holds]
    · rename_i apart
      rw [Function.update_apply] at holds
      split at holds
      · cases holds
      · rename_i notWork
        rw [after.kept other apart notWork]
        exact before.holds holds
  kept := by
    intro other outside
    have apart : other ≠ slot := by
      rintro rfl
      exact outside inside
    have notWork : other ≠ work := by
      rintro rfl
      exact outside workInside
    rw [after.kept other apart notWork]
    exact before.kept other outside

theorem delivers (z : Slot) (result : Int) :
    Mip.Yields mip (mip'.set z (Big.ofInt result)) scratch z result where
  rest := by
    rw [before.rest]
    rfl
  clean := before.clean.set (Big.ofInt_normal result).clean
  result := Mip.bigs_set_self _ _ _
  kept := by
    intro slot apart outside
    rw [Mip.bigs_set_of_ne _ _ apart]
    exact before.kept slot outside

end Registers

end Penglai.Miracl
