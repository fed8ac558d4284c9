import Penglai.Driver.Placement

namespace Penglai.Driver

/-! # The css of a request

`css_size` travels from the library to the driver and is never read there: the size in
front of the last copy is that of the device tree. -/

/-- The bytes are those at `css_ptr`, and all of them are in the range of the caller's
css. -/
def CssInRange (user : Memory) (enclaveParam : UserParam) (enclaveCss : List UInt8) : Prop :=
  enclaveCss = user.read enclaveParam.cssPtr cssLength ∧
  ∀ offset < cssLength,
    Memory.InRange (enclaveParam.cssPtr + UInt64.ofNat offset) enclaveParam.cssPtr
      enclaveParam.cssSize.toNat

def Loaded (answers : LoadAndRunAnswers) (enclaveParam : UserParam) : Prop :=
  loadLinux answers.load = 0 ∧ min answers.bin enclaveParam.binSize.toNat = 0 ∧
  min answers.dtb enclaveParam.dtbSize.toNat = 0 ∧ min answers.css cssLength = 0

/-- What is run has a complete css, and a complete css is not refused for the size of
another file. -/
def CompleteCss (user : Memory) (answers : LoadAndRunAnswers) (enclaveParam : UserParam) : Prop :=
  (∀ teeSbiParam, .sbiRun teeSbiParam ∈ (penglaiLoadAndRunLinux user answers enclaveParam).2 →
    cssLength ≤ enclaveParam.cssSize.toNat ∧
      CssInRange user enclaveParam teeSbiParam.enclaveCss) ∧
  (cssLength ≤ enclaveParam.cssSize.toNat → Loaded answers enclaveParam →
    ∃ teeSbiParam, .sbiRun teeSbiParam ∈ (penglaiLoadAndRunLinux user answers enclaveParam).2)

section Request

variable {user : Memory} {answers : LoadAndRunAnswers} {enclaveParam : UserParam}

theorem placed_iff_loaded (accepted : loadLinux answers.load = 0) :
    Placed answers enclaveParam ↔
      Loaded answers enclaveParam ∧ cssLength ≤ enclaveParam.dtbSize.toNat := by
  rw [Placed, Loaded]
  constructor
  · rintro ⟨bin, dtb, large, css⟩
    exact ⟨⟨accepted, bin, dtb, css⟩, large⟩
  · rintro ⟨⟨_, bin, dtb, css⟩, large⟩
    exact ⟨bin, dtb, large, css⟩

theorem issued_iff (param : TeeSbiParam) :
    .sbiRun param ∈ (penglaiLoadAndRunLinux user answers enclaveParam).2 ↔
      Loaded answers enclaveParam ∧ cssLength ≤ enclaveParam.dtbSize.toNat ∧
      param = teeSbiParam enclaveParam (user.read enclaveParam.cssPtr cssLength) := by
  constructor
  · intro issued
    rcases placed_of_issued issued with ⟨accepted, placed⟩
    rcases (placed_iff_loaded accepted).mp placed with ⟨loaded, large⟩
    refine ⟨loaded, large, ?_⟩
    rw [penglaiLoadAndRunLinux_of_placed user accepted placed] at issued
    simpa using issued
  · rintro ⟨loaded, large, rfl⟩
    have placed := (placed_iff_loaded loaded.1).mpr ⟨loaded, large⟩
    rw [penglaiLoadAndRunLinux_of_placed user loaded.1 placed]
    simp

theorem cssInRange_of_large (large : cssLength ≤ enclaveParam.cssSize.toNat) :
    CssInRange user enclaveParam (user.read enclaveParam.cssPtr cssLength) := by
  refine ⟨rfl, fun offset inside => ?_⟩
  exact Memory.inRange_add (inside.trans_le large) enclaveParam.cssSize.toNat_lt.le

end Request

/-- The driver deals with a css as its size demands exactly if the device tree of a
request that is loaded is on the same side of the bound as the css. -/
theorem completeCss_iff (user : Memory) (answers : LoadAndRunAnswers) (enclaveParam : UserParam) :
    CompleteCss user answers enclaveParam ↔
      (Loaded answers enclaveParam →
        (cssLength ≤ enclaveParam.dtbSize.toNat ↔ cssLength ≤ enclaveParam.cssSize.toNat)) := by
  constructor
  · rintro ⟨complete, notRefused⟩ loaded
    constructor
    · intro large
      exact (complete _ ((issued_iff _).mpr ⟨loaded, large, rfl⟩)).1
    · intro large
      rcases notRefused large loaded with ⟨param, issued⟩
      exact ((issued_iff param).mp issued).2.1
  · intro sameSide
    constructor
    · intro param issued
      rcases (issued_iff param).mp issued with ⟨loaded, large, rfl⟩
      have cssLarge := (sameSide loaded).mp large
      exact ⟨cssLarge, cssInRange_of_large cssLarge⟩
    · intro cssLarge loaded
      exact ⟨_, (issued_iff _).mpr ⟨loaded, (sameSide loaded).mpr cssLarge, rfl⟩⟩

theorem completeCss_one_byte :
    ¬∀ (user : Memory) (answers : LoadAndRunAnswers) (enclaveParam : UserParam),
      CompleteCss user answers enclaveParam := by
  intro complete
  let oneByte : UserParam := { byteRequest 0x90000000 with cssSize := 1 }
  have loaded : Loaded accepting oneByte :=
    ⟨rfl, Nat.zero_min _, Nat.zero_min _, Nat.zero_min _⟩
  have large : cssLength ≤ oneByte.dtbSize.toNat := by decide
  have issued := (@issued_iff (fun _ => 0) accepting oneByte _).mpr ⟨loaded, large, rfl⟩
  have cssLarge := ((complete _ _ _).1 _ issued).1
  exact absurd cssLarge (by decide)

end Penglai.Driver
